import Taavi.Kernel.Requests

/-!
# Dead tasks

`scheduler_wake_task` wakes dead tasks too. Where no clerk, recovery, keyboard or the task itself
does that, dead tasks stay dead until the reaper clears their slot.
-/

namespace Taavi

open Lib List Option

/-- Whether some request in the tables has a property. -/
def Ledger.anyRequest (l : Ledger) (p : Clerk → ℕ → Request → Bool) : Bool :=
  [Clerk.fs, .reaper, .gui, .doc].any fun c => (List.range c.maxEntries).any fun i =>
    (l.slot c i).any (p c i)

theorem Ledger.anyRequest_of_slot {l : Ledger} (hval : l.Valid)
    {p : Clerk → ℕ → Request → Bool} {c : Clerk} {i : ℕ} {r : Request}
    (hslot : l.slot c i = some r) (hp : p c i r = true) : l.anyRequest p = true := by
  refine any_eq_true.mpr ⟨c, by cases c <;> simp, any_eq_true.mpr
    ⟨i, mem_range.mpr (hval.lt_of_slot hslot), ?_⟩⟩
  rw [hslot]
  exact hp

theorem snd_of_ite {α β : Type*} {p : Prop} [Decidable p] {a : α} {y : α × Option β} {b : β}
    (h : (if p then (a, none) else y).2 = some b) : y.2 = some b := by
  split at h
  · cases h
  · exact h

theorem foregroundPid_of_keyboardHandler {kbd : Keyboard} {scancode pid : ℕ}
    (h : (keyboardHandler kbd scancode).2 = some pid) : kbd.foregroundPid = some pid := by
  unfold keyboardHandler at h
  replace h := snd_of_ite (snd_of_ite (snd_of_ite (snd_of_ite (snd_of_ite (snd_of_ite h)))))
  split at h
  · split at h
    · exact h
    · cases h
  · split at h
    · split at h <;> cases h
    · split at h
      · exact h
      · cases h

namespace Sys

variable {s s₁ s' t : Sys} {e : Event} {switches : Bool} {pid : ℕ}

/-- Whether a request of the task waits or is being handled, or a clerk has still to wake it. -/
def owes (s : Sys) (pid : ℕ) : Bool :=
  s.kernel.ledger.anyRequest fun c i r =>
    (r.unfinished || s.waking c == some (i, r.ticket)) && r.callerPid == pid

theorem Due.callerPid_ne {c : Clerk} {i : ℕ} {r : Request} (h : s.Due c i r) (hval : s.Valid)
    (howes : s.owes pid = false) : r.callerPid ≠ pid := by
  intro hcall
  have htrue : s.owes pid = true :=
    Ledger.anyRequest_of_slot hval.ledger h.1 (by simpa [hcall] using h.2)
  rw [htrue] at howes
  cases howes

/-- Nobody is killed who is owed a request or a wake, and no dead task gets the keyboard. -/
def stmtKillsSafely (s : Sys) : Stmt → Bool
  | .kill targetPid => !s.owes targetPid
  | .setDead => !s.owes s.kernel.currentPid
  | .changeFocus targetPid => s.kernel.stateOf targetPid ≠ some .dead
  | _ => true

/-- A dead task makes no round trip. -/
def tripsAlive (s : Sys) : Bool :=
  s.cpu.trip.all fun t => t.2 = .ready ∨ t.2 = .waiting ∨
    s.kernel.stateOf s.kernel.currentPid ≠ some .dead

/-- Statements meet theirs, a dead task makes no round trip and gets no key, a clerk wakes for a
request that is still there, and it faults only while it handles one. -/
def killsSafely (s : Sys) : Event → Bool
  | .act _ => s.nextStmt.all s.stmtKillsSafely && s.tripsAlive && s.wakesKnown
  | .key _ => s.kernel.keyboard.foregroundPid.all fun pid => s.kernel.stateOf pid ≠ some .dead
  | .fault _ => s.cpu.handling.isSome
  | _ => true

theorem killsSafely_act {o : Outside} : s.killsSafely (.act o) = true ↔
    s.nextStmt.all s.stmtKillsSafely = true ∧ s.tripsAlive = true ∧ s.wakesKnown = true := by
  simp only [killsSafely, Bool.and_eq_true, and_assoc]

theorem stmtKillsSafely_of_atStmt {o : Outside} (hok : s.killsSafely (.act o) = true) {stmt : Stmt}
    {rest : List Stmt} (hat : s.AtStmt stmt rest) : s.stmtKillsSafely stmt = true := by
  have hall := (killsSafely_act.mp hok).1
  rwa [hat.nextStmt, all_some] at hall

/-- Nothing will wake a dead task. -/
structure Mortal (s : Sys) : Prop where
  callers : ∀ c i r, s.Due c i r → s.kernel.stateOf r.callerPid ≠ some .dead
  clerks : ∀ pid, pid < clerkCount → s.kernel.stateOf pid ≠ some .dead

theorem mortal_boot : boot.Mortal := by
  refine ⟨fun c i r h => ?_, fun pid hpid => ?_⟩
  · simp [Due, boot, kernelMain, Ledger.slot, Ledger.init] at h
  · simp [boot, kernelMain, Kernel.stateOf, hpid]

theorem not_dead_of_trip (halive : s.tripsAlive = true) {trip : RoundTrip} {phase : Phase}
    (htrip : s.cpu.trip = some (trip, phase)) (hphase : phase = .enter ∨ phase = .half) :
    s.kernel.stateOf s.kernel.currentPid ≠ some .dead := by
  rw [tripsAlive, htrip, all_some, decide_eq_true_eq] at halive
  rcases hphase with rfl | rfl <;> simpa using halive

theorem Change.owes_of_dies (h : Change s e switches s₁) (hval : s.Valid)
    (hok : s.killsSafely e = true) (hpre : s.kernel.stateOf pid ≠ some .dead)
    (hdead : s₁.kernel.stateOf pid = some .dead) :
    s.cpu.trip = none ∧ clerkCount ≤ pid ∧ s.owes pid = false := by
  have hmove := h.stateMove hval pid
  rw [hdead] at hmove
  generalize hafter : some TaskState.dead = after at hmove
  cases hmove with
  | same => exact absurd hafter.symm hpre
  | own hcur hown =>
    subst hcur
    cases hown with
    | trip _ _ hsame => exact absurd (hsame hafter.symm) hpre
    | @blocked _ old hold =>
      split at hafter
      · rename_i hdead
        exact absurd (hdead ▸ hold) hpre
      · cases hafter
    | died hat =>
      have howes := stmtKillsSafely_of_atStmt hok hat
      exact ⟨hat.trip, hval.stmt hat, by simpa [stmtKillsSafely] using howes⟩
    | slept _ hne => exact absurd hafter.symm hne
  | woken => cases h : s.kernel.stateOf pid <;> simp [h] at hafter
  | killed hat =>
    have howes := stmtKillsSafely_of_atStmt hok hat
    exact ⟨hat.trip, (hval.stmt hat).2, by simpa [stmtKillsSafely] using howes⟩
  | destroyed | created => cases hafter

theorem Mortal.not_dead_of_woken (hmortal : s.Mortal) (hval : s.Valid)
    (hok : s.killsSafely e = true) (h : Woken s e pid) : s.kernel.stateOf pid ≠ some .dead := by
  cases h with
  | clerk hclerk => exact hmortal.clerks pid hclerk
  | settled _ hcur hwake hslot =>
    exact hmortal.callers _ _ _ ⟨hslot, .inr (by rw [waking_current hcur, hwake])⟩
  | stale hgone =>
    rw [(killsSafely_act.mp hok).2.2] at hgone
    cases hgone
  | focus hat => simpa [stmtKillsSafely] using stmtKillsSafely_of_atStmt hok hat
  | key hwoken => simpa [killsSafely, foregroundPid_of_keyboardHandler hwoken] using hok
  | recovered hcur hlast hslot =>
    obtain ⟨⟨i, ticket⟩, hwork⟩ := isSome_iff_exists.mp hok
    obtain ⟨⟨r', hslot', -, hprog⟩, hlast'⟩ := hval.holds_current hwork hcur
    cases hlast'.symm.trans hlast
    cases hslot'.symm.trans hslot
    exact hmortal.callers _ _ _ ⟨hslot, .inl (by simp [Request.unfinished, hprog])⟩

theorem Change.stays_dead (h : Change s e switches s₁) (hval : s.Valid) (hmortal : s.Mortal)
    (hok : s.killsSafely e = true) (hdead : s.kernel.stateOf pid = some .dead) :
    s₁.kernel.stateOf pid = some .dead ∨ s₁.kernel.stateOf pid = none := by
  have hmove := h.stateMove hval pid
  generalize s₁.kernel.stateOf pid = after at hmove
  cases hmove with
  | same => exact .inl hdead
  | own hcur hown =>
    subst hcur
    cases hown with
    | trip htrip hphase =>
      exact absurd hdead (not_dead_of_trip (killsSafely_act.mp hok).2.1 htrip hphase)
    | blocked hold =>
      cases hold.symm.trans hdead
      exact .inl rfl
    | died hat hstate => exact .inl hstate
    | slept hclerk => exact absurd hdead (hmortal.clerks _ hclerk)
  | woken hwoken => exact absurd hdead (hmortal.not_dead_of_woken hval hok hwoken)
  | killed => exact .inl (by rw [hdead]; rfl)
  | destroyed => exact .inr rfl
  | created hnone =>
    rw [hnone] at hdead
    cases hdead

theorem Mortal.change (hmortal : s.Mortal) (hval : s.Valid) (hok : s.killsSafely e = true)
    (h : Change s e switches s₁) : s₁.Mortal := by
  refine ⟨fun c i r' hdue' hdead => ?_, fun pid hpid hdead => ?_⟩
  · rcases h.due hval hdue' with ⟨r, hdue, hsame⟩ | ⟨-, hadded⟩
    · rw [hsame.2.1] at hdead
      have howes := (h.owes_of_dies hval hok (hmortal.callers c i r hdue) hdead).2.2
      exact hdue.callerPid_ne hval howes rfl
    · cases hadded with
      | intro htrip horder hadds _ =>
        have hphase := horder.phase
        have hcall := hadds.caller
        have halive := not_dead_of_trip (killsSafely_act.mp hok).2.1 htrip hphase
        have hidle := (h.owes_of_dies hval hok (hcall ▸ halive) hdead).1
        rw [htrip] at hidle
        cases hidle
  · have hge := (h.owes_of_dies hval hok (hmortal.clerks pid hpid) hdead).2.1
    omega

theorem Mortal.switched (hmortal : s.Mortal) (h : Switched s s') : s'.Mortal := by
  have hpre : ∀ {pid}, s'.kernel.stateOf pid = some .dead → s.kernel.stateOf pid = some .dead :=
    h.picked.parked.1 _ .dead (.inr rfl)
  exact ⟨fun c i r hdue hdead => hmortal.callers c i r (h.due hdue) (hpre hdead),
    fun pid hpid hdead => hmortal.clerks pid hpid (hpre hdead)⟩

theorem mortal_of_run {es : List Event}
    (hrun : Run (Guarded (fun s e => s.killsSafely e = true) Step) boot es s) :
    s.Valid ∧ s.Mortal :=
  invariant_of_changes Mortal
    (fun _ _ _ _ hval hmortal hok h => hmortal.change hval hok h)
    (fun _ _ _ _ _ _ _ _ hmortal h => hmortal.switched h) hrun valid_boot mortal_boot

theorem Step.stays_dead (h : Step s e s') (hval : s.Valid) (hmortal : s.Mortal)
    (hok : s.killsSafely e = true) (hdead : s.kernel.stateOf pid = some .dead) :
    s'.kernel.stateOf pid = some .dead ∨ s'.kernel.taskTable pid = none := by
  have hcleared : ∀ {k : Kernel}, k.stateOf pid = none → k.taskTable pid = none :=
    map_eq_none_iff.mp
  rcases changed_of_step h with hchange | ⟨s₁, hchange, hswitch⟩
  · exact (hchange.stays_dead hval hmortal hok hdead).imp_right hcleared
  · rcases hchange.stays_dead hval hmortal hok hdead with hstill | hnone
    · have hidle : pid ≠ idleTaskPid := by
        rintro rfl
        exact hmortal.clerks _ (by decide) hdead
      exact .inl (hswitch.picked.parked.2 pid .dead hidle (.inr rfl) hstill)
    · refine .inr (map_eq_none_iff.mp ((hswitch.picked.identity pid).trans ?_))
      exact map_eq_none_iff.mpr (hcleared hnone)

theorem not_selected_of_dead {k : Kernel} (hidle : pid ≠ idleTaskPid)
    (hdead : k.stateOf pid = some .dead) (dirty : Bool) :
    (schedulerFindNextTask (beforePick k dirty)).2 ≠ some pid := by
  intro hselected
  have hstill := (beforePick_keeps dirty).2.2 pid .dead hidle (.inr rfl) hdead
  have hrunnable := ((schedulerFindNextTask_spec _).2 pid hselected).2
  rw [hstill] at hrunnable
  rcases hrunnable with h | h <;> cases h

/-- **Dead tasks stay dead** and are not chosen until their slot is cleared. -/
theorem dead_task_stays_dead {es es' : List Event}
    (hrun : Run (Guarded (fun s e => s.killsSafely e = true) Step) boot es s)
    (hdead : s.kernel.stateOf pid = some .dead)
    (hrun' : Run (Guarded (fun s e => s.killsSafely e = true) Step) s es' t) :
    (t.kernel.stateOf pid = some .dead ∧
      ∀ dirty, (schedulerFindNextTask (beforePick t.kernel dirty)).2 ≠ some pid) ∨
    ∃ es₁ es₂ u, es' = es₁ ++ es₂ ∧
      Run (Guarded (fun s e => s.killsSafely e = true) Step) s es₁ u ∧
      u.kernel.taskTable pid = none := by
  have hkept := hrun'.keeps_until (P := fun u => (∃ es,
      Run (Guarded (fun s e => s.killsSafely e = true) Step) boot es u) ∧
      u.kernel.stateOf pid = some .dead) (Q := fun u => u.kernel.taskTable pid = none) ?_
    ⟨⟨es, hrun⟩, hdead⟩
  · refine hkept.imp_left ?_
    rintro ⟨⟨_, hreach⟩, hstill⟩
    refine ⟨hstill, not_selected_of_dead ?_ hstill⟩
    rintro rfl
    exact (mortal_of_run hreach).2.clerks _ (by decide) hstill
  · rintro u e u' ⟨⟨_, hreach⟩, hstill⟩ hstep
    obtain ⟨hvalid, hmortal⟩ := mortal_of_run hreach
    refine (hstep.2.stays_dead hvalid hmortal hstep.1 hstill).imp_left fun h => ?_
    exact ⟨⟨_, hreach.append (.cons hstep (.nil _))⟩, h⟩

/-- The first task starts another task and kills it. -/
def killsChild : List Event :=
  [.syscall .exec, .act .smooth, .syscall (.kill 6), .act .smooth]

/-- The child is dead, and it stays so in the next step. -/
theorem dead_child_stays_dead : ∃ s t,
    Run (Guarded (fun s e => s.killsSafely e = true) Step) boot killsChild s ∧
      s.kernel.stateOf 6 = some .dead ∧
      Run (Guarded (fun s e => s.killsSafely e = true) Step) s [.act .smooth] t ∧
      ((t.kernel.stateOf 6 = some .dead ∧
        ∀ dirty, (schedulerFindNextTask (beforePick t.kernel dirty)).2 ≠ some 6) ∨
      ∃ es₁ es₂ u, [.act .smooth] = es₁ ++ es₂ ∧
        Run (Guarded (fun s e => s.killsSafely e = true) Step) s es₁ u ∧
        u.kernel.taskTable 6 = none) := by
  have hexec : (exec (guardStep killsSafely Sys.step) boot killsChild).any (fun s =>
      decide (s.kernel.stateOf 6 = some .dead) &&
      (exec (guardStep killsSafely Sys.step) s [.act .smooth]).any fun _ => true) = true := by
    decide +kernel
  obtain ⟨s, hrun, hs⟩ := exists_guarded_run_of_exec hexec
  simp only [Bool.and_eq_true, decide_eq_true_eq] at hs
  obtain ⟨t, hrun', -⟩ := exists_guarded_run_of_exec hs.2
  exact ⟨s, t, hrun, hs.1, hrun', dead_task_stays_dead hrun hs.1 hrun'⟩

/-- A task opens a file, and is killed before the clerk has handled the request. -/
def killsClient : List Event :=
  [.syscall .exec, .act .smooth, .syscall .yield, .act .smooth,
    .syscall (.openFile (some [65]) 1 1), .act .smooth, .act .smooth, .act .smooth, .act .smooth,
    .tick false, .tick false, .tick false, .syscall (.kill 6), .act .smooth]

/-- The clerk wakes the dead task, which then runs. -/
theorem dead_client_runs : ∃ s t, Run Step boot killsClient s ∧
    s.kernel.stateOf 6 = some .dead ∧ Run Step s (List.replicate 10 (.act .smooth)) t ∧
    t.kernel.stateOf 6 = some .running ∧ t.kernel.identity 6 = s.kernel.identity 6 := by
  have hexec : (exec Sys.step boot killsClient).any (fun s =>
      decide (s.kernel.stateOf 6 = some .dead) &&
      (exec Sys.step s (List.replicate 10 (.act .smooth))).any fun t =>
        decide (t.kernel.stateOf 6 = some .running) &&
        decide (t.kernel.identity 6 = s.kernel.identity 6)) = true := by
    decide +kernel
  obtain ⟨s, hrun, hs⟩ := exists_run_of_exec hexec
  simp only [Bool.and_eq_true, decide_eq_true_eq] at hs
  obtain ⟨t, hrun', ht⟩ := exists_run_of_exec hs.2
  simp only [Bool.and_eq_true, decide_eq_true_eq] at ht
  exact ⟨s, t, hrun, hs.1, hrun', ht.1, ht.2⟩

end Sys

end Taavi
