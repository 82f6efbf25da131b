import Taavi.Kernel.Requests

/-!
# Nobody blocks without a request

A blocked task that has yielded in a call of the file system clerk has a request there, where the
call is accepted before the task blocks, the doctor is not interrupted in between, and a clerk not
between its status write and its wake.
-/

namespace Taavi

open Lib

def AddCall.isFs : AddCall → Bool
  | fs .. => true
  | _ => false

/-- `ledger_add_fs_req` accepts: a slot is free, the descriptor fits, and there is memory. -/
def AddCall.acceptable (k : Kernel) (o : Outside) : AddCall → Bool
  | fs type fd buf _ _ =>
    ledgerCountAllClerkReqs k.ledger .fs < Clerk.fs.maxEntries ∧
      ¬((fd < 2 ∨ maxFdEntries < fd) ∧ (type = .read ∨ type = .write)) ∧
      o.okReq ∧ (buf.isSome → o.okBuf)
  | _ => true

section

variable {k : Kernel} {c : Clerk} {pid : ℕ} {o : Outside}

theorem exists_empty_of_count {l : Ledger} (h : ledgerCountAllClerkReqs l c < c.maxEntries) :
    ∃ i, i < c.maxEntries ∧ l.slot c i = none := by
  by_contra hno
  have hfull : ∀ i ∈ List.range c.maxEntries, (l.slot c i).isSome = true := by
    intro i hi
    cases hslot : l.slot c i with
    | none => exact absurd ⟨i, List.mem_range.mp hi, hslot⟩ hno
    | some r => rfl
  unfold ledgerCountAllClerkReqs at h
  rw [List.filter_eq_self.mpr hfull, List.length_range] at h
  exact lt_irrefl _ h

theorem queueReq_accepts {r : Request} (hclerk : r.clerkPid = c.pid)
    (hempty : ∃ i, i < c.maxEntries ∧ k.ledger.slot c i = none) : (queueReq k r).2 = true := by
  unfold queueReq
  rw [hclerk, ledgerGetQueue_pid]
  dsimp only
  cases hscan : firstSlot c.maxEntries fun i => (k.ledger.slot c i).isNone with
  | some i => rfl
  | none =>
    obtain ⟨i, hi, hslot⟩ := hempty
    have hfalse := firstSlot_eq_none.mp hscan i hi
    simp [hslot] at hfalse

theorem AddCall.accepted_of_acceptable {call : AddCall} (hfs : call.isFs = true)
    (h : call.acceptable k o = true) : (call.run k pid o).2 = true := by
  cases call with
  | fs type fd buf bufferSize flags =>
    obtain ⟨hcount, hfd, hreq, hbuf⟩ := of_decide_eq_true h
    simp only [AddCall.run]
    unfold ledgerAddFsReq
    rw [if_neg (by omega), if_neg hfd, if_neg (by simp [hreq])]
    split_ifs with hno
    · simp [hbuf hno.1] at hno
    · exact queueReq_accepts rfl (exists_empty_of_count hcount)
  | gui | doc | free => cases hfs

theorem AddCall.clerk_of_isFs {call : AddCall} (hfs : call.isFs = true) : call.clerk = .fs := by
  cases call with
  | fs => rfl
  | gui | doc | free => cases hfs

end

namespace Sys

variable {s s₁ s' : Sys} {e : Event} {switches : Bool} {pid : ℕ}

variable {trip : RoundTrip}

/-- A request of the task is waiting or in progress in the queue of the file system
clerk. -/
def Served (s : Sys) (pid : ℕ) : Prop :=
  ∃ i r, s.kernel.ledger.slot .fs i = some r ∧ r.callerPid = pid ∧ r.unfinished = true

/-- The clerk has written the status, and wakes the task next. -/
def Waking (s : Sys) (pid : ℕ) : Prop :=
  s.kernel.currentPid = Clerk.fs.pid ∧ ∃ i r, s.cpu.waking = some (i, r.ticket) ∧
    s.kernel.ledger.slot .fs i = some r ∧ r.callerPid = pid

/-- The task has yielded, blocked, in a call of the file system clerk. -/
def blockedInFs (s : Sys) (pid : ℕ) : Bool :=
  s.kernel.stateOf pid = some .blocked ∧
    (s.threadOf pid).any fun th => th.trip.any fun t => t.1.call.isFs && t.2 = .waiting

/-- Calls that add before they block are accepted, and the timer does not come in between. The
status write of a clerk and its wake are one step: nothing comes between them. -/
def blocksSafely (s : Sys) : Event → Bool
  | .act o =>
    match s.cpu.trip with
    | some (trip, .enter) => trip.blockFirst || trip.call.acceptable s.kernel o
    | _ => true
  | .tick _ =>
    s.cpu.waking.isNone &&
      match s.cpu.trip with
      | some (trip, .half) => trip.blockFirst || !trip.call.isFs
      | _ => true
  | _ => s.cpu.waking.isNone

/-- A task in a round trip has a request when it is about to block and when it is
blocked. -/
def BlockingAt (s : Sys) (pid : ℕ) (trip : RoundTrip) (phase : Phase) : Prop :=
  (phase = .half → trip.blockFirst = false → pid = s.kernel.currentPid ∧ s.Served pid) ∧
    (phase = .ready ∨ phase = .waiting → s.kernel.stateOf pid = some .blocked →
      s.Served pid ∨ s.Waking pid)

/-- This holds of every task that calls the file system clerk. -/
def Blocking (s : Sys) : Prop :=
  ∀ pid th trip phase, s.threadOf pid = some th → th.trip = some (trip, phase) →
    trip.call.isFs = true → s.BlockingAt pid trip phase

theorem Served.change (h : s.Served pid) (hchange : Change s e switches s₁) (hval : s.Valid)
    (hblock : s₁.kernel.stateOf pid = some .blocked) : s₁.Served pid ∨ s₁.Waking pid := by
  obtain ⟨i, r, hslot, rfl, hunfin⟩ := h
  have hnot : r.status ≠ .terminated ∧ ¬r.status.settled := by
    have hstat : r.status = .pending ∨ r.status = .inProgress := of_decide_eq_true hunfin
    rcases hstat with h | h <;> simp [h, Status.settled]
  have hmove := hchange.requestMove hval hslot
  generalize hslot' : s₁.kernel.ledger.slot .fs i = after at hmove
  cases hmove with
  | same => exact .inl ⟨i, r, hslot', rfl, hunfin⟩
  | fetched => exact .inl ⟨i, _, hslot', rfl, rfl⟩
  | @settled _ r' _ _ hcur _ htick hsame _ hwake =>
    refine .inr ⟨(hchange.isLocal hval).currentPid.trans hcur, i, r', ?_, hslot', hsame.2.1⟩
    rw [hwake (by decide), hsame.1, htick]
  | collected _ _ hdone => exact absurd hdone hnot.2
  | givenUp _ _ hwoken => exact absurd hblock hwoken
  | removed hterm => exact absurd hterm hnot.1

/-- The wake follows at once, and the task is not blocked any more. -/
theorem Waking.change (h : s.Waking pid) (hchange : Change s e switches s₁) (hval : s.Valid)
    (hok : s.blocksSafely e = true) : s₁.kernel.stateOf pid ≠ some .blocked := by
  obtain ⟨hcur, i, r, hwake, hslot, rfl⟩ := h
  have htrip : s.cpu.trip = none := by
    rw [Option.eq_none_iff_forall_not_mem]
    rintro ⟨trip, phase⟩ htrip
    have hwho := (hval.cpu.trip trip phase htrip).who
    rw [hcur] at hwho
    exact absurd hwho (by decide)
  cases e with
  | act o =>
    obtain ⟨c, hc, rfl⟩ := hchange.wakes htrip hwake
    obtain rfl := Clerk.pid_injective (hcur.symm.trans hc)
    have hcall : s.kernel.ledger.callerOf .fs i r.ticket o.stale = r.callerPid := by
      simp [Ledger.callerOf, hslot]
    simp only [wakeStep, hcall]
    rw [stateOf_schedulerWakeTask, if_pos ⟨rfl, (hval.sane _ i r hslot).1⟩]
    cases s.kernel.stateOf r.callerPid <;> simp
  | syscall | docCall | tick | key | fault => simp [blocksSafely, hwake] at hok

theorem Change.blocked_of_ne (h : Change s e switches s₁) (hval : s.Valid)
    (hpid : pid ≠ s.kernel.currentPid) (hblock : s₁.kernel.stateOf pid = some .blocked) :
    s.kernel.stateOf pid = some .blocked := by
  have hmove := h.stateMove hval pid
  rw [hblock] at hmove
  generalize hstate : some TaskState.blocked = after at hmove
  cases hmove with
  | same => rfl
  | own hcur => exact absurd hcur hpid
  | woken | killed => cases h : s.kernel.stateOf pid <;> simp [h] at hstate
  | destroyed | created => cases hstate

theorem served_addStep (hval : s.Valid) {next : Phase} {o : Outside}
    (hfs : trip.call.isFs = true) :
    (s.addStep trip next o).Served s.kernel.currentPid ∨
      (s.addStep trip next o).kernel.stateOf s.kernel.currentPid = some .ready ∧
        (trip.call.run s.kernel s.kernel.currentPid o).2 = false := by
  obtain ⟨res, hout, hker, hres⟩ := addStep_outcome hval trip next o
  rw [hres]
  cases hout with
  | @accepted i r hi hempty hadds =>
    refine .inl ⟨i, { r with ticket := s.kernel.ledger.nextTicket }, ?_, hadds.caller, ?_⟩
    · rw [hker, sameTasks_wakeClerk.ledger, AddCall.clerk_of_isFs hfs, Ledger.slot_put,
        if_pos ⟨rfl, rfl⟩]
    · simp [Request.unfinished, hadds.pending]
  | woken =>
    refine .inr ⟨?_, rfl⟩
    rw [hker, stateOf_schedulerWakeTask, if_pos ⟨rfl, hval.current⟩]
    obtain ⟨state, hstate⟩ := hval.currentState
    rw [hstate]
    rfl
  | refused hfree =>
    rw [hfree] at hfs
    cases hfs

theorem Served.of_ledger (h : s.Served pid) (hled : s₁.kernel.ledger = s.kernel.ledger) :
    s₁.Served pid := by
  unfold Served
  rw [hled]
  exact h

theorem Waking.of_same (h : s.Waking pid) (hcur : s₁.kernel.currentPid = s.kernel.currentPid)
    (hled : s₁.kernel.ledger = s.kernel.ledger) (hwake : s₁.cpu.waking = s.cpu.waking) :
    s₁.Waking pid := by
  unfold Waking
  rw [hcur, hled, hwake]
  exact h

theorem blocked_of_key {scancode : ℕ} (h : (s.key scancode).kernel.stateOf pid = some .blocked) :
    s.kernel.stateOf pid = some .blocked := by
  obtain ⟨kbd, ⟨heq, -⟩ | ⟨target, -, heq⟩⟩ := key_cases s scancode
  · rw [heq] at h
    exact h
  · rw [heq, stateOf_schedulerWakeTask] at h
    split at h
    · simp at h
    · exact h

theorem Blocking.change_current (hinv : s.Blocking) (hval : s.Valid)
    (hok : s.blocksSafely e = true) (h : Change s e switches s₁) {phase : Phase}
    (htrip : s₁.cpu.trip = some (trip, phase)) (hfs : trip.call.isFs = true) :
    s₁.BlockingAt s.kernel.currentPid trip phase := by
  have hcur := (h.isLocal hval).currentPid
  have hpre : ∀ {before}, s.cpu.trip = some (trip, before) →
      s.BlockingAt s.kernel.currentPid trip before :=
    fun htrip => hinv _ s.cpu trip _ s.threadOf_currentPid htrip hfs
  rcases h.trip htrip hval with rfl | ⟨hsame, hevent⟩ | ⟨before, o, rfl, htrip', horder, rfl, -⟩ |
    ⟨before, o, rfl, htrip', horder, rfl, -⟩ | ⟨rfl, htrip', rfl, -⟩
  · exact ⟨fun h => (by cases h), fun h => by rcases h with h | h <;> cases h⟩
  · rw [hsame] at htrip
    obtain ⟨hhalf, hwait⟩ := hpre htrip
    rcases hevent with ⟨dirty, -, rfl⟩ | ⟨scancode, rfl⟩
    · exact ⟨hhalf, hwait⟩
    · cases h with
      | key =>
        have hled := (sameTasks_key s scancode).ledger
        exact ⟨fun hphase hfst => ⟨hcur.symm, (hhalf hphase hfst).2.of_ledger hled⟩,
          fun hphase hblock => (hwait hphase (blocked_of_key hblock)).imp
            (fun h => h.of_ledger hled) fun h => h.of_same hcur hled rfl⟩
  · rcases horder with ⟨hfst, rfl, rfl⟩ | ⟨hfst, rfl, rfl⟩
    · refine ⟨fun _ hno => ?_, fun h => by rcases h with h | h <;> cases h⟩
      rw [hfst] at hno
      cases hno
    · exact ⟨fun h => (by cases h), fun _ _ =>
        .inl (((hpre htrip').1 rfl hfst).2.of_ledger sameTasks_block.ledger)⟩
  · rcases horder with ⟨hfst, rfl, rfl⟩ | ⟨hfst, rfl, rfl⟩
    · refine ⟨fun _ _ => ⟨hcur.symm, ?_⟩, fun h => by rcases h with h | h <;> cases h⟩
      have hfst' : trip.blockFirst = false := by simpa using hfst
      rcases served_addStep hval hfs with hserve | ⟨-, hrefused⟩
      · exact hserve
      · simp only [blocksSafely, htrip', hfst', Bool.false_or] at hok
        rw [AddCall.accepted_of_acceptable hfs hok] at hrefused
        cases hrefused
    · refine ⟨fun h => (by cases h), fun _ hblock => ?_⟩
      rcases served_addStep hval hfs with hserve | ⟨hready, -⟩
      · exact .inl hserve
      · rw [hready] at hblock
        cases hblock
  · exact ⟨fun h => (by cases h), fun _ hblock => (hpre htrip').2 (.inl rfl) hblock⟩

theorem Blocking.change (hinv : s.Blocking) (hval : s.Valid) (hok : s.blocksSafely e = true)
    (h : Change s e switches s₁) : s₁.Blocking := by
  intro pid th trip phase hth htrip hfs
  rcases (h.isLocal hval).threads hth with ⟨rfl, rfl⟩ | ⟨hpid, hold⟩
  · exact hinv.change_current hval hok h htrip hfs
  · obtain ⟨hhalf, hwait⟩ := hinv pid th trip phase hold htrip hfs
    refine ⟨fun hphase hfst => absurd (hhalf hphase hfst).1 hpid, fun hphase hblock => ?_⟩
    rcases hwait hphase (h.blocked_of_ne hval hpid hblock) with hserve | hwake
    · exact hserve.change h hval hblock
    · exact absurd hblock (hwake.change h hval hok)

theorem Change.not_half (h : Change s e true s₁) (hval : s.Valid)
    (hok : s.blocksSafely e = true) (htrip : s₁.cpu.trip = some (trip, .half))
    (hfst : trip.blockFirst = false) : trip.call.isFs = false := by
  rcases h.trip htrip hval with h' | ⟨hsame, ⟨dirty, rfl, rfl⟩ | ⟨scancode, rfl⟩⟩ |
    ⟨_, _, _, _, _, _, hno⟩ | ⟨_, _, _, _, _, _, hno⟩ | ⟨h', -⟩
  · cases h'
  · have hboth : s₁.cpu.waking = none ∧ trip.call.isFs = false := by
      simpa [blocksSafely, htrip, hfst] using hok
    exact hboth.2
  · cases h
  · cases hno
  · cases hno
  · cases h'

theorem Change.waking_of_switches (h : Change s e true s₁) (hval : s.Valid)
    (hok : s.blocksSafely e = true) (hcur : s₁.kernel.currentPid = Clerk.fs.pid) :
    s₁.cpu.waking = none := by
  cases h with
  | leave htrip =>
    have hwho := (hval.cpu.trip _ _ htrip).who
    rw [show s.kernel.currentPid = _ from hcur] at hwho
    exact absurd hwho (by decide)
  | yield hat => exact hat.waking
  | tick => exact Option.isNone_iff_eq_none.mp (Bool.and_eq_true_iff.mp hok).1
  | fault => rfl

theorem Blocking.switched (hinv : s₁.Blocking)
    (hwhole : s₁.kernel.currentPid = Clerk.fs.pid → s₁.cpu.waking = none)
    (hhalf : ∀ trip, s₁.cpu.trip = some (trip, .half) → trip.blockFirst = false →
      trip.call.isFs = false) (h : Switched s₁ s') : s'.Blocking := by
  intro pid th trip phase hth htrip hfs
  rcases h.threads pid th hth with ⟨hold, -⟩ | ⟨rfl, -⟩
  · obtain ⟨hadded, hwait⟩ := hinv pid th trip phase hold htrip hfs
    refine ⟨fun hphase hfst => ?_, fun hphase hblock => ?_⟩
    · obtain ⟨rfl, -⟩ := hadded hphase hfst
      rw [threadOf_currentPid, Option.some.injEq] at hold
      rw [← hold, hphase] at htrip
      rw [hhalf trip htrip hfst] at hfs
      cases hfs
    · have hpre := h.picked.parked.1 pid .blocked (.inl rfl) hblock
      rcases hwait hphase hpre with hserve | ⟨hcur, i, r, hwake, -⟩
      · exact .inl (hserve.of_ledger h.picked.ledger)
      · rw [hwhole hcur] at hwake
        cases hwake
  · cases htrip

theorem blocking_boot : boot.Blocking := by
  intro pid th trip phase hth htrip
  rw [threadOf_boot hth] at htrip
  cases htrip

def opensFile : List Event :=
  .syscall (.openFile (some [65]) 1 1) :: List.replicate 4 (.act .smooth)

/-- A client writes to descriptor 0, which `ledger_add_fs_req` refuses. -/
def writesToKeyboard : List Event :=
  .syscall (.write 0 (some [65]) 1) :: List.replicate 4 (.act .smooth)

end Sys

end Taavi
