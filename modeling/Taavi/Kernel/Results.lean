import Taavi.Kernel.Owners

/-!
# What clients collect

The invariant of requests and owners is kept. So a client collects what the clerk has left in the
request of that very call.
-/

namespace Taavi.Sys

open Lib List Option

variable {s s₁ s' : Sys} {e : Event} {switches : Bool} {pid : ℕ}

variable {th : Thread} {trip : RoundTrip} {phase : Phase} {ticket : ℕ}

theorem Matched.owned_change (hinv : s.Matched) (hval : s.Valid) (hok : s.wakesSafely e = true)
    (h : Change s e switches s₁) {c : Clerk} (huser : clerkCount ≤ pid)
    (hth : s₁.threadOf pid = some th) (howns : th.Owns c ticket) : s₁.Kept c ticket pid := by
  have hkept : ∀ {th₀ : Thread}, s.threadOf pid = some th₀ → th₀.Owns c ticket →
      (∀ trip, s.cpu.trip = some (trip, .waiting) → pid ≠ s.kernel.currentPid) →
      s₁.Kept c ticket pid := by
    intro th₀ hth₀ howns₀ hopen
    rcases hinv.owned pid th₀ c ticket huser hth₀ howns₀ with
      ⟨i, r, hslot, rfl, hcall, hlive⟩ | hfailed
    · exact hinv.requested h hval hok huser hth hslot hlive hcall hopen
    · exact .inr (h.failed hval hfailed)
  rcases (h.isLocal hval).threads hth with ⟨rfl, rfl⟩ | ⟨hpid, hold⟩
  · have hpre : ∀ {trip : RoundTrip} {phase : Phase}, s.cpu.trip = some (trip, phase) →
        trip.toAdd phase = false → trip.call.clerk = c → s.cpu.own = some ticket →
        phase ≠ .waiting → s₁.Kept c ticket s.kernel.currentPid := by
      intro trip phase htrip hadded hclerk hown hphase
      refine hkept s.threadOf_currentPid ⟨trip, phase, htrip, hadded, hclerk, hown⟩
        fun trip' htrip' => ?_
      obtain ⟨-, rfl⟩ := Prod.mk.inj (Option.some.inj (htrip.symm.trans htrip'))
      exact absurd rfl hphase
    obtain ⟨trip, phase, htrip, hadded, hclerk, hown⟩ := howns
    rcases h.trip_of_user hval huser htrip with rfl | ⟨before, o, rfl, htrip', horder, rfl⟩ |
      ⟨before, o, rfl, htrip', horder, rfl⟩ | ⟨rfl, htrip', rfl, -⟩
    · cases hadded
    · rcases horder with ⟨hfst, rfl, rfl⟩ | ⟨hfst, rfl, rfl⟩
      · rw [RoundTrip.toAdd, hfst] at hadded
        cases hadded
      · exact hpre htrip' (by simpa [RoundTrip.toAdd] using hfst) hclerk hown (by simp)
    · exact .inl (requested_addStep hval hclerk hown)
    · exact hpre htrip' rfl hclerk hown (by simp)
  · exact hkept hold howns fun _ _ => hpid

theorem Matched.delivered_change (hinv : s.Matched) (hval : s.Valid)
    (h : Change s e switches s₁) :
    s₁.delivered.Nodup ∧ ∀ ticket ∈ s₁.delivered, s₁.kernel.ledger.Finished ticket := by
  have hpre : ∀ ticket ∈ s.delivered, s₁.kernel.ledger.Finished ticket :=
    fun ticket hmem => h.finishedTicket hval (hinv.delivered.2 ticket hmem)
  have hval₁ := hval.change h
  rcases h.delivered with hsame | ⟨trip, -, rfl⟩
  · rw [hsame]
    exact ⟨hinv.delivered.1, hpre⟩
  · rcases collectStep_cases s trip with ⟨-, hsame, -⟩ |
      ⟨i, r, -, hslot, -, hdone, hled, hdelivered⟩
    · rw [hsame]
      exact ⟨hinv.delivered.1, hpre⟩
    · rw [hdelivered]
      refine ⟨nodup_cons.mpr ⟨fun hmem => ?_, hinv.delivered.1⟩, fun ticket hmem => ?_⟩
      · have hterm := (hinv.delivered.2 _ hmem).2 _ _ _ hslot rfl
        exact absurd hterm hdone.ne.1
      · rcases mem_cons.mp hmem with rfl | hmem
        · have hslot' : (s.collectStep trip).kernel.ledger.slot trip.call.clerk i =
              some { r with status := .terminated } := by
            rw [hled, Ledger.setStatus, Ledger.slot_modify, if_pos ⟨rfl, rfl⟩, hslot]
            rfl
          have hfin := hval₁.ledger.finished hslot' rfl
          exact hfin
        · exact hpre ticket hmem

theorem Matched.entering_change (hinv : s.Matched) (hval : s.Valid)
    (hok : s.wakesSafely e = true) (h : Change s e switches s₁)
    (huser : clerkCount ≤ s.kernel.currentPid)
    (htrip : s₁.cpu.trip = some (trip, phase)) (hphase : phase = .half ∧ trip.blockFirst = true ∨
      phase = .ready ∧ s₁.cpu.own.isSome = true) :
    s₁.kernel.stateOf s.kernel.currentPid = some .blocked := by
  rcases h.trip_of_user hval huser htrip with rfl | ⟨before, o, rfl, htrip', horder, rfl⟩ |
    ⟨before, o, rfl, htrip', horder, rfl⟩ | ⟨rfl, -⟩
  · rcases hphase with ⟨hphase, -⟩ | ⟨hphase, -⟩ <;> cases hphase
  · obtain ⟨state, hstate⟩ := hval.currentState
    have halive : state ≠ .dead := by
      rintro rfl
      have halive := (wakesSafely_act.mp hok).2.2.1
      exact not_dead_of_trip halive htrip' horder.phase hstate
    have hblock : (s.blockStep trip phase).kernel.stateOf s.kernel.currentPid = _ :=
      stateOf_block hstate
    rw [hblock, if_neg fun hdead => halive hdead.2]
  · rcases horder with ⟨hfst, rfl, rfl⟩ | ⟨hfst, rfl, rfl⟩
    · rcases hphase with ⟨-, hfst'⟩ | ⟨hphase, -⟩
      · simp [hfst'] at hfst
      · cases hphase
    · have hblocked := hinv.entering huser trip .half htrip' (.inl ⟨rfl, by simpa using hfst⟩)
      rcases stateOf_addStep hval huser trip .ready o with hstate | ⟨hno, -⟩
      · exact hstate.trans hblocked
      · rcases hphase with ⟨hphase, -⟩ | ⟨-, hown⟩
        · cases hphase
        · simp [addStep, hno] at hown
  · rcases hphase with ⟨hphase, -⟩ | ⟨hphase, -⟩ <;> cases hphase

theorem Matched.change (hinv : s.Matched) (hcoll : s.Collecting) (hval : s.Valid)
    (hok : s.wakesSafely e = true) (h : Change s e switches s₁) : s₁.Matched := by
  have hlocal := h.isLocal hval
  constructor
  · intro huser
    rw [hlocal.currentPid] at huser ⊢
    exact (h.startedOf_currentPid hval huser).trans (hinv.started huser)
  · intro pid th trip phase huser hpid hth
    rw [hlocal.currentPid] at hpid
    rcases hlocal.threads hth with ⟨rfl, -⟩ | ⟨-, hold⟩
    · exact absurd rfl hpid
    · exact hinv.suspended pid th trip phase huser hpid hold
  · intro huser trip phase htrip hphase
    rw [hlocal.currentPid] at huser ⊢
    exact hinv.entering_change hval hok h huser htrip hphase
  · exact fun c i r => hinv.owner_change hcoll hval hok h
  · rw [hlocal.currentPid]
    exact fun c i r hdue => hinv.waits_change hcoll hval hok h hdue.1 hdue.2
  · intro c i ticket hwake
    refine ⟨?_, ?_⟩
    · rcases h.waking hval hwake with hold | ⟨r, -, hslot, rfl, -⟩
      · exact (hinv.late c i ticket hold).1.trans_le (h.nextTicket_le hval)
      · exact (hval.ledger.fresh c i r hslot).trans_le (h.nextTicket_le hval)
    · rintro r hslot rfl huser
      exact hinv.late_change hcoll hval hok h hslot hwake huser
  · exact fun c i r => hinv.produced_change hval h
  · exact fun pid th c ticket => hinv.owned_change hval hok h
  · exact hinv.delivered_change hval h

theorem Collecting.change (hval : s.Valid) (h : Change s e false s₁) : s₁.Collecting := by
  intro huser trip htrip
  rw [(h.isLocal hval).currentPid] at huser
  rcases h.trip_of_user hval huser htrip with hphase | ⟨_, _, _, _, horder, _⟩ |
    ⟨_, _, _, _, horder, _⟩ | ⟨-, -, -, hswitches⟩
  · cases hphase
  · rcases horder with ⟨-, -, hphase⟩ | ⟨-, -, hphase⟩ <;> cases hphase
  · rcases horder with ⟨-, -, hphase⟩ | ⟨-, -, hphase⟩ <;> cases hphase
  · cases hswitches

/-- A user task that gives the processor away in a round trip is blocked if it has a request. -/
def Leaving (s : Sys) : Prop :=
  clerkCount ≤ s.kernel.currentPid → ∀ trip phase, s.cpu.trip = some (trip, phase) →
    phase = .waiting ∧
      (s.cpu.own.isSome = true → s.kernel.stateOf s.kernel.currentPid = some .blocked)

theorem Matched.leaving (hinv : s.Matched) (hval : s.Valid) (hok : s.wakesSafely e = true)
    (h : Change s e true s₁) : s₁.Leaving := by
  intro huser trip phase htrip
  cases h with
  | leave htrip' =>
    cases htrip
    exact ⟨rfl, fun hown => hinv.entering huser _ .ready htrip' (.inr ⟨rfl, hown⟩)⟩
  | yield hat =>
    have hidle : s.cpu.trip = some (trip, phase) := htrip
    rw [hat.trip] at hidle
    cases hidle
  | tick hon =>
    rw [hval.outside_of_interruptible huser hon] at htrip
    cases htrip
  | fault => cases hok

theorem Switched.thread_of_trip (h : Switched s s')
    (hth : s'.threadOf pid = some th) (htrip : th.trip = some (trip, phase)) :
    s.threadOf pid = some th := by
  rcases h.threads pid th hth with ⟨hold, -⟩ | ⟨rfl, -⟩
  · exact hold
  · cases htrip

theorem Matched.yielded (hinv : s.Matched) (hleaving : s.Leaving) (huser : clerkCount ≤ pid)
    (hth : s.threadOf pid = some th)
    (htrip : th.trip = some (trip, phase)) : phase = .waiting := by
  by_cases hpid : pid = s.kernel.currentPid
  · subst hpid
    rw [threadOf_currentPid] at hth
    rw [← Option.some.inj hth] at htrip
    exact (hleaving huser trip phase htrip).1
  · exact hinv.suspended pid th trip phase huser hpid hth htrip

theorem Matched.savesFrame (hinv : s.Matched) (hleaving : s.Leaving)
    (huser : clerkCount ≤ s.kernel.currentPid) {c : Clerk}
    (howns : s.cpu.Owns c ticket) : savesFrame s.kernel = true := by
  obtain ⟨trip, phase, htrip, -, -, hown⟩ := howns
  have hstart := hinv.started huser
  have hblock := (hleaving huser trip phase htrip).2 (by simp [hown])
  unfold Taavi.savesFrame schedulerGetCurrentTask
  unfold Kernel.startedOf at hstart
  unfold Kernel.stateOf at hblock
  cases htask : s.kernel.taskTable s.kernel.currentPid with
  | none => simp [htask] at hblock
  | some t =>
    simp only [htask, any_some] at hstart
    simp only [htask, map_some, Option.some.injEq] at hblock
    simp [hstart, hblock]

theorem Matched.switched (hinv : s.Matched) (hleaving : s.Leaving) (h : Switched s s') :
    s'.Matched := by
  have hled := h.picked.ledger
  have hcur : clerkCount ≤ s'.kernel.currentPid → ∀ trip phase,
      s'.cpu.trip = some (trip, phase) → phase = .waiting := fun huser trip phase htrip =>
    hinv.yielded hleaving huser (h.thread_of_trip s'.threadOf_currentPid htrip) htrip
  constructor
  · intro huser
    rw [h.picked.started]
    simp
  · intro pid th trip phase huser hpid hth htrip
    exact hinv.yielded hleaving huser (h.thread_of_trip hth htrip) htrip
  · intro huser trip phase htrip hphase
    rw [hcur huser trip phase htrip] at hphase
    rcases hphase with ⟨hphase, -⟩ | ⟨hphase, -⟩ <;> cases hphase
  · intro c i r hslot hlive huser
    rw [hled] at hslot
    obtain ⟨th, hth, howns⟩ := hinv.owner c i r hslot hlive huser
    refine ⟨th, h.kept _ _ hth fun hcall => ?_, howns⟩
    rw [hcall, threadOf_currentPid] at hth
    rw [hcall] at huser
    exact hinv.savesFrame hleaving huser (Option.some.inj hth ▸ howns)
  · intro c i r hdue huser
    have hidle : r.callerPid ≠ idleTaskPid := by
      rintro heq
      rw [heq] at huser
      exact absurd huser (by decide)
    rcases hinv.waits c i r (h.due hdue) huser with hblock | hdead | ⟨hcall, trip, htrip⟩
    · exact .inl (h.picked.parked.2 _ _ hidle (.inl rfl) hblock)
    · exact .inr (.inl (h.picked.parked.2 _ _ hidle (.inr rfl) hdead))
    · cases (hleaving (hcall ▸ huser) trip _ htrip).1
  · rw [hled]
    exact fun c i ticket hwake => hinv.late c i ticket (h.waking hwake)
  · intro c i r hslot
    rw [hled] at hslot
    rw [h.produced]
    exact hinv.produced c i r hslot
  · intro pid th c ticket huser hth howns
    obtain ⟨trip, phase, htrip, -⟩ := id howns
    unfold Kept Failed
    rw [hled, h.produced, h.delivered]
    exact hinv.owned pid th c ticket huser (h.thread_of_trip hth htrip) howns
  · rw [h.delivered, hled]
    exact hinv.delivered

theorem Switched.collecting (h : Switched s s') : s'.Collecting := fun _ _ _ => h.picked.running

theorem matched_boot : boot.Matched ∧ boot.Collecting := by
  have hempty : ∀ c i r, boot.kernel.ledger.slot c i ≠ some r := by
    intro c i r h
    simp [boot, kernelMain, Ledger.slot, Ledger.init] at h
  have hidle : ∀ {pid th trip phase}, boot.threadOf pid = some th →
      th.trip ≠ some (trip, phase) := by
    intro pid th trip phase hth htrip
    rw [threadOf_boot hth] at htrip
    cases htrip
  refine ⟨⟨fun _ => by decide, ?_, ?_, ?_, ?_, ?_, ?_, ?_, nodup_nil, ?_⟩, ?_⟩
  · exact fun pid th trip phase _ _ hth htrip => absurd htrip (hidle hth)
  · exact fun _ trip phase htrip => absurd htrip (hidle boot.threadOf_currentPid)
  · exact fun c i r hslot => absurd hslot (hempty c i r)
  · exact fun c i r hdue => absurd hdue.1 (hempty c i r)
  · intro c i ticket hwake
    obtain ⟨th, hth, hwake⟩ := bind_eq_some_iff.mp hwake
    rw [threadOf_boot hth] at hwake
    cases hwake
  · exact fun c i r hslot => absurd hslot (hempty c i r)
  · rintro pid th c ticket _ hth ⟨trip, phase, htrip, -⟩
    exact absurd htrip (hidle hth)
  · exact fun ticket hmem => absurd hmem not_mem_nil
  · exact fun _ trip htrip => absurd htrip (hidle boot.threadOf_currentPid)

theorem matched_of_run {es : List Event}
    (hrun : Run (Guarded (fun s e => s.wakesSafely e = true) Step) boot es s) :
    s.Valid ∧ s.Matched ∧ s.Collecting :=
  invariant_of_moves (fun s => s.Matched ∧ s.Collecting) (fun _ _ _ hval hinv hok h =>
      ⟨hinv.1.change hinv.2 hval hok h, Collecting.change hval h⟩)
    (fun _ _ _ _ hval hinv hok h _ hswitch =>
      ⟨(hinv.1.change hinv.2 hval hok h).switched (hinv.1.leaving hval hok h) hswitch,
        hswitch.collecting⟩)
    hrun valid_boot matched_boot

/-- What `ledger_collect` gives to the current task at the end of a round trip. -/
def collected (s : Sys) (trip : RoundTrip) : Ledger × Result :=
  ledgerCollect s.kernel.ledger s.kernel.currentPid trip.call.clerk.pid trip.out

/-- The current task gets what the clerk has left in its own request, for the first time. Without a
request it gets an error. -/
def CollectsOwn (s : Sys) (trip : RoundTrip) : Prop :=
  (∀ ticket, s.cpu.own = some ticket → ticket ∉ s.delivered ∧
    ∃ r, s.produced ticket = some r ∧ r.status.settled ∧ (s.collected trip).2 = r.result trip.out) ∧
  (s.cpu.own = none → s.collected trip = (s.kernel.ledger, ⟨statusError, none⟩))

theorem Matched.collected_cases (hinv : s.Matched) (huser : clerkCount ≤ s.kernel.currentPid)
    (trip : RoundTrip) : s.collected trip = (s.kernel.ledger, ⟨statusError, none⟩) ∨
      ∃ c i r, s.kernel.ledger.slot c i = some r ∧ r.status.settled ∧
        r.callerPid = s.kernel.currentPid ∧ s.cpu.Owns c r.ticket := by
  rcases ledgerCollect_cases s.kernel.ledger s.kernel.currentPid trip.call.clerk trip.out with
    ⟨heq, -⟩ | ⟨i, r, -, hslot, hcall, hdone, -⟩
  · exact .inl heq
  · refine .inr ⟨_, i, r, hslot, hdone, hcall, hinv.owner_current huser hslot ?_ hcall⟩
    exact hdone.ne.1

section

variable (hinv : s.Matched) (hval : s.Valid) (hcoll : s.Collecting)
  (huser : clerkCount ≤ s.kernel.currentPid) {trip : RoundTrip}
  (htrip : s.cpu.trip = some (trip, .waiting))
include hinv hval hcoll huser htrip

theorem Matched.collected_slot {c : Clerk} {i : ℕ} {r : Request}
    (hslot : s.kernel.ledger.slot c i = some r) (hlive : r.status ≠ .terminated)
    (hcall : r.callerPid = s.kernel.currentPid) :
    r.status.settled ∧ (s.collected trip).2 = r.result trip.out := by
  obtain ⟨rfl, hdone, hscan⟩ :=
    hinv.collect_spec hval hcoll huser htrip hslot hlive hcall
  refine ⟨hdone, ?_⟩
  unfold collected
  rcases ledgerCollect_cases s.kernel.ledger s.kernel.currentPid trip.call.clerk trip.out with
    ⟨-, hnone⟩ | ⟨j, r', hscan', hslot', -, -, heq⟩
  · rw [hscan] at hnone
    cases hnone
  · cases hscan.symm.trans hscan'
    rw [heq, Option.some.inj (hslot.symm.trans hslot')]

theorem Matched.collectsOwn : s.CollectsOwn trip := by
  refine ⟨fun ticket hown => ?_, fun hown => ?_⟩
  · have howns : s.cpu.Owns trip.call.clerk ticket := ⟨trip, _, htrip, rfl, rfl, hown⟩
    rcases hinv.owned _ s.cpu _ ticket huser s.threadOf_currentPid howns with
      ⟨i, r, hslot, rfl, hcall, hlive⟩ | ⟨hfin, hdelivered, r, hprod, hfailed⟩
    · obtain ⟨hdone, hresult⟩ :=
        hinv.collected_slot hval hcoll huser htrip hslot hlive hcall
      refine ⟨fun hmem => hlive ((hinv.delivered.2 _ hmem).2 _ _ _ hslot rfl), r, ?_, hdone,
        hresult⟩
      exact hinv.produced _ i r hslot hdone (hcall ▸ huser)
    · refine ⟨hdelivered, r, hprod, .inr hfailed, ?_⟩
      rcases hinv.collected_cases huser trip with herror | ⟨c, i, r', hslot, hdone, -, howns'⟩
      · rw [herror]
        simp [Request.result, hfailed]
      · have hterm := hfin.2 c i r' hslot (howns.unique howns').2.symm
        exact absurd hterm hdone.ne.1
  · rcases hinv.collected_cases huser trip with herror | ⟨c, i, r, -, -, -, howns⟩
    · exact herror
    · obtain ⟨-, -, -, -, -, hown'⟩ := howns
      rw [hown] at hown'
      cases hown'

end

/-- **Clients get their own results**, each once, in every run in which nobody who waits for a result
or a wake is woken by the keyboard, clerks wake for requests that are still there, the reaper
destroys no task with another request, dead tasks make no calls and no clerk faults. -/
theorem client_collects_its_own_result {es : List Event}
    (hrun : Run (Guarded (fun s e => s.wakesSafely e = true) Step) boot es s) :
    s.delivered.Nodup ∧ (clerkCount ≤ s.kernel.currentPid →
      ∀ trip, s.cpu.trip = some (trip, .waiting) → s.CollectsOwn trip) := by
  obtain ⟨hval, hinv, hcoll⟩ := matched_of_run hrun
  exact ⟨hinv.delivered.1, fun huser trip htrip =>
    hinv.collectsOwn hval hcoll huser htrip⟩

/-- A client opens a file, its request is handled, and the client is chosen again. -/
def opensAndWaits : List Event :=
  .syscall (.openFile (some [65]) 1 1) :: List.replicate 10 (.act .smooth)

/-- The client that opens a file gets its descriptor. -/
theorem opening_client_collects : ∃ s,
    Run (Guarded (fun s e => s.wakesSafely e = true) Step) boot opensAndWaits s ∧
      s.kernel.currentPid = 5 ∧ s.cpu.own = some 0 ∧
      ∃ trip, s.cpu.trip = some (trip, .waiting) ∧ s.CollectsOwn trip := by
  have hexec : (exec (guardStep wakesSafely Sys.step) boot opensAndWaits).any (fun s =>
      s.kernel.currentPid = 5 ∧ s.cpu.own = some 0 ∧
        s.cpu.trip.any fun t => t.2 = .waiting) = true := by
    decide +kernel
  obtain ⟨s, hrun, hs⟩ := exists_guarded_run_of_exec hexec
  obtain ⟨hcurrent, hown, hany⟩ := of_decide_eq_true hs
  obtain ⟨⟨trip, phase⟩, htrip, hphase⟩ := (any_eq_true _ _).mp hany
  obtain rfl := of_decide_eq_true hphase
  exact ⟨s, hrun, hcurrent, hown, trip, htrip,
    (client_collects_its_own_result hrun).2 (by rw [hcurrent]; decide) trip htrip⟩

/-- A client that asked for the keyboard opens a file. While it waits, a key is pressed. -/
def opensWhileTyping : List Event :=
  List.flatten [[.syscall (.changeFocus 5), .act .smooth, .syscall (.openFile (some [65]) 1 1)],
    List.replicate 4 (.act .smooth), .key 30 :: List.replicate 3 (.tick false)]

/-- The client was woken by the key. It is about to get an error while its request waits. -/
theorem typing_client_collects_error : ∃ s, Run Step boot opensWhileTyping s ∧
    s.kernel.currentPid = 5 ∧ s.cpu.own = some 0 ∧ ∃ trip, s.cpu.trip = some (trip, .waiting) ∧
      (s.collected trip).2 = ⟨statusError, none⟩ ∧
      (∃ r, s.kernel.ledger.slot .fs 0 = some r ∧ r.ticket = 0 ∧ r.status = .pending) ∧
      ¬s.CollectsOwn trip := by
  have hexec : (exec Sys.step boot opensWhileTyping).any (fun s =>
      s.kernel.currentPid = 5 ∧ s.cpu.own = some 0 ∧ s.produced 0 = none ∧
        (s.kernel.ledger.slot .fs 0).any (fun r => r.ticket = 0 ∧ r.status = .pending) ∧
        s.cpu.trip.any fun t => t.2 = .waiting ∧
          (s.collected t.1).2 = ⟨statusError, none⟩) = true := by
    decide +kernel
  obtain ⟨s, hrun, hs⟩ := exists_run_of_exec hexec
  obtain ⟨hcurrent, hown, hproduced, hslot, hany⟩ := of_decide_eq_true hs
  obtain ⟨r, hr, hpending⟩ := (any_eq_true _ _).mp hslot
  obtain ⟨⟨trip, phase⟩, htrip, hphase⟩ := (any_eq_true _ _).mp hany
  obtain ⟨rfl, herror⟩ := of_decide_eq_true hphase
  refine ⟨s, hrun, hcurrent, hown, trip, htrip, herror, ⟨r, hr, of_decide_eq_true hpending⟩, ?_⟩
  intro hcollects
  obtain ⟨-, r', hr', -⟩ := hcollects.1 0 hown
  rw [hproduced] at hr'
  cases hr'

end Taavi.Sys
