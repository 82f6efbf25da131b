import Taavi.Kernel.Switching

/-!
# The moves of the system

One inversion of the step function, on which the invariants of the system are built: the
cases of a call that adds a request, the threads after a switch, and the moves behind
each event.
-/

namespace Taavi

open Lib

section

variable {k : Kernel} {pid : ℕ} {o : Outside}

structure AddCall.Adds (call : AddCall) (pid : ℕ) (r : Request) : Prop where
  pending : r.status = .pending
  caller : r.callerPid = pid
  target : ∀ clerk targetPid aim, call = .free clerk targetPid aim → r.targetPid = targetPid

/-- A new request in the queue of its clerk, which is woken; or only its own task woken; or nothing. -/
inductive AddCall.Outcome (call : AddCall) (k : Kernel) (pid : ℕ) : Kernel × Bool → Prop
  | accepted {i : ℕ} {r : Request} : i < call.clerk.maxEntries →
      k.ledger.slot call.clerk i = none → call.Adds pid r →
      Outcome call k pid
        (wakeClerk { k with ledger := k.ledger.put call.clerk i r } call.clerk.pid, true)
  | woken : Outcome call k pid (schedulerWakeTask k pid, false)
  | refused {clerk : Clerk} {targetPid aim : ℕ} : call = .free clerk targetPid aim →
      Outcome call k pid (k, false)

theorem queueReq_outcome {call : AddCall} {r : Request} (hclerk : r.clerkPid = call.clerk.pid)
    (hadds : call.Adds pid r) : call.Outcome k pid (queueReq k r) := by
  rcases queueReq_cases k r with ⟨d, i, hqueue, hi, hempty, heq⟩ | heq
  · rw [hclerk, ledgerGetQueue_pid] at hqueue
    cases hqueue
    rw [heq, hclerk]
    exact .accepted hi hempty hadds
  · rw [heq, hadds.caller]
    exact .woken

theorem AddCall.run_outcome (call : AddCall) (k : Kernel) (o : Outside) (hpid : pid < maxTasks) :
    call.Outcome k pid (call.run k pid o) := by
  have hsmall : ∀ n, n < maxTasks → n % 2 ^ 16 = n :=
    fun n hn => Nat.mod_eq_of_lt (hn.trans (by decide))
  cases call with
  | fs type fd buf bufferSize flags =>
    simp only [AddCall.run]
    unfold ledgerAddFsReq
    split_ifs
    case neg =>
      refine queueReq_outcome ?_ ⟨?_, ?_, fun _ _ _ h => AddCall.noConfusion h⟩
      · rfl
      · rfl
      · exact hsmall pid hpid
    all_goals exact .woken
  | gui params =>
    simp only [AddCall.run]
    unfold ledgerAddGuiReq
    iterate 4
      split
      · exact .woken
    refine queueReq_outcome ?_ ⟨?_, ?_, fun _ _ _ h => AddCall.noConfusion h⟩
    · rfl
    · rfl
    · exact hsmall pid hpid
  | doc opcode =>
    simp only [AddCall.run]
    unfold ledgerAddDocReq
    split_ifs
    · exact .woken
    · refine queueReq_outcome ?_ ⟨?_, ?_, fun _ _ _ h => AddCall.noConfusion h⟩
      · rfl
      · rfl
      · exact hsmall pid hpid
  | free clerk targetPid aim =>
    simp only [AddCall.run]
    unfold ledgerQueueFreeReq
    split_ifs with hbound
    · exact .refused rfl
    · have hclerk : clerk.pid % 2 ^ 8 = clerk.pid := by cases clerk <;> rfl
      refine queueReq_outcome ?_ ⟨?_, ?_, fun d t a h => ?_⟩
      · exact hclerk
      · rfl
      · exact hsmall pid hpid
      · obtain ⟨-, rfl, -⟩ := AddCall.free.inj h
        exact hsmall targetPid (by omega)
    · exact .refused rfl

end

namespace Sys

variable {s s' : Sys} {dirty : Bool}

structure Switched (s s' : Sys) : Prop where
  picked : Picked s.kernel s'.kernel.currentPid s'.kernel
  aims : s'.aims = s.aims
  produced : s'.produced = s.produced
  delivered : s'.delivered = s.delivered
  threads : ∀ pid th, s'.threadOf pid = some th →
    s.threadOf pid = some th ∧ (pid = s.kernel.currentPid → savesFrame s.kernel = true) ∨
      th = .entry pid ∧ pid = s'.kernel.currentPid ∧ s.kernel.startedOf pid = false
  kept : ∀ pid th, s.threadOf pid = some th →
    (pid = s.kernel.currentPid → savesFrame s.kernel = true) → s'.threadOf pid = some th

theorem startedOf_of_savesFrame {k : Kernel} (h : savesFrame k = true) :
    k.startedOf k.currentPid = true := by
  unfold savesFrame schedulerGetCurrentTask at h
  unfold Kernel.startedOf
  obtain ⟨t, htask, h⟩ := Option.any_eq_true _ _ |>.mp h
  simp only [decide_eq_true_eq] at h
  simpa [htask] using h.1

theorem switched_of_switch (h : s.switch dirty = some s') : Switched s s' := by
  unfold switch at h
  split at h
  · cases h
  · rename_i next k hswitch
    have hpick := picked_of_schedulerSwitch hswitch
    obtain ⟨th, hresumed, rfl⟩ := Option.map_eq_some_iff.mp h
    have hnext : k.currentPid = next := hpick.currentPid
    set frame := assign s.frame s.kernel.currentPid
      (if savesFrame s.kernel then some s.cpu else none) with hframe
    have hcur : frame s.kernel.currentPid =
        if savesFrame s.kernel then some s.cpu else none := assign_same ..
    have hother : ∀ pid, pid ≠ s.kernel.currentPid → frame pid = s.frame pid :=
      fun pid hpid => assign_of_ne _ _ hpid
    -- What the frames say about the threads from before.
    have hold : ∀ pid th, s.kernel.startedOf pid = true → (frame pid = some th ↔
        s.threadOf pid = some th ∧ (pid = s.kernel.currentPid → savesFrame s.kernel = true)) := by
      intro pid th hstart
      unfold threadOf
      by_cases hpid : pid = s.kernel.currentPid
      · rw [if_pos hpid, hpid, hcur]
        by_cases hsaves : savesFrame s.kernel = true <;> simp [hsaves]
      · have hstart' : Option.any Task.started (s.kernel.taskTable pid) = true := hstart
        simp [hpid, hother pid hpid, hstart']
    refine ⟨by rw [hnext]; exact hpick, rfl, rfl, rfl, fun pid th' hth => ?_,
      fun pid th' hth hsaves => ?_⟩
    · unfold threadOf at hth
      simp only [hnext] at hth ⊢
      split at hth
      · rename_i hpid
        cases hth
        split at hresumed
        · rename_i hstart
          exact .inl ((hold pid th (by rw [hpid]; exact hstart)).mp (by rw [hpid]; exact hresumed))
        · rename_i hstart
          refine .inr ⟨by rw [hpid]; exact (Option.some.inj hresumed).symm, hpid, ?_⟩
          rw [hpid]
          exact Bool.eq_false_iff.mpr hstart
      · rename_i hpid
        split at hth
        · rename_i hstart
          have hstart' : s.kernel.startedOf pid = true := by
            have h := hpick.started pid
            have hk : k.startedOf pid = true := hstart
            rw [hk] at h
            simpa [hpid] using h.symm
          exact .inl ((hold pid th' hstart').mp hth)
        · cases hth
    · have hstart : s.kernel.startedOf pid = true := by
        by_cases hpid : pid = s.kernel.currentPid
        · rw [hpid]
          exact startedOf_of_savesFrame (hsaves hpid)
        · unfold threadOf at hth
          rw [if_neg hpid] at hth
          unfold Kernel.startedOf
          by_contra hno
          rw [if_neg hno] at hth
          cases hth
      have hframe' := (hold pid th' hstart).mpr ⟨hth, hsaves⟩
      unfold threadOf
      simp only [hnext]
      split
      · rename_i hpid
        subst hpid
        have hstart' : Option.any Task.started (s.kernel.taskTable pid) = true := hstart
        rw [if_pos hstart', hframe'] at hresumed
        exact hresumed.symm
      · have hk : k.startedOf pid = true := by rw [hpick.started, hstart, Bool.true_or]
        have hk' : Option.any Task.started (k.taskTable pid) = true := hk
        rw [if_pos hk', hframe']

/-- The current task is at a statement of its code. -/
structure AtStmt (s : Sys) (stmt : Stmt) (rest : List Stmt) : Prop where
  trip : s.cpu.trip = none
  handling : s.cpu.handling = none
  waking : s.cpu.waking = none
  code : s.cpu.code = stmt :: rest

/-- The statement that the current task is at, if it is at one. -/
def nextStmt (s : Sys) : Option Stmt :=
  if s.cpu.trip = none ∧ s.cpu.handling = none ∧ s.cpu.waking = none then s.cpu.code.head? else none

theorem AtStmt.nextStmt {stmt : Stmt} {rest : List Stmt} (h : s.AtStmt stmt rest) :
    s.nextStmt = some stmt := by
  unfold Sys.nextStmt
  rw [if_pos ⟨h.trip, h.handling, h.waking⟩, h.code]
  rfl

/-- The request that the reaper serves in the next step. -/
def reaps (s : Sys) : Option Request :=
  if s.kernel.currentPid = Clerk.reaper.pid ∧ s.cpu.trip = none ∧ s.cpu.waking = none then
    s.cpu.handling.bind fun work => s.kernel.ledger.slot .reaper work.1
  else none

theorem reaps_of_reap {i ticket : ℕ} {r : Request} (htrip : s.cpu.trip = none)
    (hwork : s.cpu.handling = some (i, ticket))
    (hcur : s.kernel.currentPid = Clerk.reaper.pid)
    (hslot : s.kernel.ledger.slot .reaper i = some r) (hwake : s.cpu.waking = none) :
    s.reaps = some r := by
  unfold reaps
  rw [if_pos ⟨hcur, htrip, hwake⟩, hwork]
  exact hslot

theorem waking_of_reaps {r : Request} (h : s.reaps = some r) : s.cpu.waking = none := by
  unfold reaps at h
  split at h
  · rename_i hreaper
    exact hreaper.2.2
  · cases h

def TripOrder (first : Bool) (phase next : Phase) : Prop :=
  first = true ∧ phase = .enter ∧ next = .half ∨ first = false ∧ phase = .half ∧ next = .ready

theorem TripOrder.phase {first : Bool} {phase next : Phase} (h : TripOrder first phase next) :
    phase = .enter ∨ phase = .half := by
  rcases h with ⟨-, rfl, -⟩ | ⟨-, rfl, -⟩
  · exact .inl rfl
  · exact .inr rfl

/-- An event changes the system around the current task, and then it may end in a switch. -/
inductive Change (s : Sys) : Event → Bool → Sys → Prop
  | block {trip : RoundTrip} {phase next : Phase} {o : Outside} :
      s.cpu.trip = some (trip, phase) → TripOrder trip.blockFirst phase next →
      Change s (.act o) false (s.blockStep trip next)
  | add {trip : RoundTrip} {phase next : Phase} {o : Outside} :
      s.cpu.trip = some (trip, phase) → TripOrder (!trip.blockFirst) phase next →
      Change s (.act o) false (s.addStep trip next o)
  | leave {trip : RoundTrip} {o : Outside} : s.cpu.trip = some (trip, .ready) →
      Change s (.act o) true { s with cpu := { s.cpu with trip := some (trip, .waiting) } }
  | collect {trip : RoundTrip} {o : Outside} : s.cpu.trip = some (trip, .waiting) →
      Change s (.act o) false (s.collectStep trip)
  | handle {c : Clerk} {i ticket : ℕ} {o : Outside} : s.cpu.trip = none →
      s.cpu.handling = some (i, ticket) → s.kernel.currentPid = c.pid → c ≠ .reaper →
      s.cpu.waking = none → Change s (.act o) false (s.handleStep c i ticket o)
  | reap {i ticket : ℕ} {r : Request} {o : Outside} : s.cpu.trip = none →
      s.cpu.handling = some (i, ticket) → s.kernel.currentPid = Clerk.reaper.pid →
      s.kernel.ledger.slot .reaper i = some r → s.cpu.waking = none →
      Change s (.act o) false (s.reapStep i ticket r o)
  | wake {c : Clerk} {i ticket : ℕ} {o : Outside} : s.cpu.trip = none →
      s.cpu.waking = some (i, ticket) → s.kernel.currentPid = c.pid →
      Change s (.act o) false (s.wakeStep c i ticket o)
  | enter {trip : RoundTrip} {rest : List Stmt} {o : Outside} :
      s.AtStmt (.roundTrip trip) rest →
      Change s (.act o) false { s with cpu := { s.cpu with trip := some (trip, .enter), code := rest } }
  | setBlocked {rest : List Stmt} {o : Outside} : s.AtStmt .setBlocked rest →
      Change s (.act o) false (s.become (schedulerSetTaskState s.kernel .blocked) rest)
  | setDead {rest : List Stmt} {o : Outside} : s.AtStmt .setDead rest →
      Change s (.act o) false (s.become (schedulerSetTaskState s.kernel .dead) rest)
  | yield {rest : List Stmt} {o : Outside} : s.AtStmt .yield rest →
      Change s (.act o) true (s.become s.kernel rest)
  | kill {targetPid : ℕ} {rest : List Stmt} {o : Outside} : s.AtStmt (.kill targetPid) rest →
      Change s (.act o) false (s.become (s.kernel.setState targetPid .dead) rest)
  | keyboard {stmt : Stmt} {rest code : List Stmt} {kbd : Keyboard} {o : Outside} :
      s.AtStmt stmt rest →
      code = rest ∨ stmt = .readKeyboard ∧ code = .setBlocked :: .yield :: stmt :: rest →
      Change s (.act o) false (s.become { s.kernel with keyboard := kbd } code)
  | exec {rest : List Stmt} {k : Kernel} {o : Outside} : s.AtStmt .exec rest →
      k = s.kernel ∨ createUserTask s.kernel = some k → Change s (.act o) false (s.become k rest)
  | changeFocus {targetPid : ℕ} {rest : List Stmt} {o : Outside} :
      s.AtStmt (.changeFocus targetPid) rest →
      Change s (.act o) false (s.become (changeKeyboardFocus s.kernel targetPid) rest)
  | fetch {c : Clerk} {rest : List Stmt} {o : Outside} : s.AtStmt (.fetch c) rest →
      Change s (.act o) false (s.fetchStep c rest)
  | sweep {rest : List Stmt} {l : Ledger} {o : Outside} : s.AtStmt .sweep rest →
      l = s.kernel.ledger ∨ l = ledgerRemoveRequest s.kernel.ledger →
      Change s (.act o) false (s.become { s.kernel with ledger := l } rest)
  | unstart {rest : List Stmt} {o : Outside} : s.AtStmt .unstart rest →
      Change s (.act o) false (s.become
        (s.kernel.modifyTask s.kernel.currentPid fun t => { t with started := false }) rest)
  | sleep {rest : List Stmt} {o : Outside} : s.AtStmt .sleep rest →
      Change s (.act o) false (s.become (s.kernel.setState s.kernel.currentPid .sleeping) rest)
  | syscall {call : Syscall} : s.callsFromUser = true →
      Change s (.syscall call) false { s with cpu := { s.cpu with code := call.code s.kernel } }
  | docCall {call : DocCall} : s.docCalls call = true →
      Change s (.docCall call) false { s with cpu := { s.cpu with trip := some (call.trip, .enter) } }
  | tick {dirty : Bool} : s.interruptible = true → Change s (.tick dirty) true s
  | key {scancode : ℕ} : s.interruptible = true → Change s (.key scancode) false (s.key scancode)
  | fault {c : Clerk} {dirty : Bool} : s.kernel.currentPid = c.pid → c ≠ .reaper →
      Change s (.fault dirty) true (s.recover c)

/-- What an event leaves: the change alone, or the change and a switch. -/
def Changed (s : Sys) (e : Event) (s' : Sys) : Prop :=
  Change s e false s' ∨ ∃ s₁, Change s e true s₁ ∧ Switched s₁ s'

/-- The same, with the switch itself. -/
def Moved (s : Sys) (e : Event) (s' : Sys) : Prop :=
  Change s e false s' ∨ ∃ s₁ dirty, Change s e true s₁ ∧ s₁.switch dirty = some s'

theorem moved_of_tripStep {trip : RoundTrip} {phase : Phase} {o : Outside}
    (htrip : s.cpu.trip = some (trip, phase)) (h : s.tripStep trip phase o = some s') :
    Moved s (.act o) s' := by
  unfold tripStep at h
  split at h
  · rename_i hfst
    cases h
    exact .inl (.block htrip (.inl ⟨hfst, rfl, rfl⟩))
  · rename_i hfst
    cases h
    exact .inl (.add htrip (.inl ⟨by simp [hfst], rfl, rfl⟩))
  · rename_i hfst
    cases h
    exact .inl (.add htrip (.inr ⟨by simp [hfst], rfl, rfl⟩))
  · rename_i hfst
    cases h
    exact .inl (.block htrip (.inr ⟨hfst, rfl, rfl⟩))
  · exact .inr ⟨_, _, .leave htrip, h⟩
  · cases h
    exact .inl (.collect htrip)

theorem moved_of_stmtStep {stmt : Stmt} {rest : List Stmt} {o : Outside}
    (hat : s.AtStmt stmt rest) (h : s.stmtStep stmt rest o = some s') : Moved s (.act o) s' := by
  cases stmt with
  | yield =>
    have hswitch : (s.become s.kernel rest).switch o.dirty = some s' := h
    exact .inr ⟨_, _, .yield hat, hswitch⟩
  | roundTrip trip =>
    cases h
    exact .inl (.enter hat)
  | setBlocked =>
    cases h
    exact .inl (.setBlocked hat)
  | setDead =>
    cases h
    exact .inl (.setDead hat)
  | kill targetPid =>
    cases h
    exact .inl (.kill hat)
  | releaseFocus | setOperator =>
    cases h
    exact .inl (.keyboard hat (.inl rfl))
  | readKeyboard =>
    cases h
    refine .inl (.keyboard hat ?_)
    split
    · exact .inl rfl
    · exact .inr ⟨rfl, rfl⟩
  | exec =>
    cases h
    refine .inl (.exec hat ?_)
    split
    · cases hcreate : createUserTask s.kernel with
      | none => exact .inl rfl
      | some k => exact .inr rfl
    · exact .inl rfl
  | changeFocus targetPid =>
    cases h
    exact .inl (.changeFocus hat)
  | fetch c =>
    cases h
    exact .inl (.fetch hat)
  | sweep =>
    cases h
    refine .inl (.sweep hat ?_)
    split
    · exact .inr rfl
    · exact .inl rfl
  | unstart =>
    cases h
    exact .inl (.unstart hat)
  | sleep =>
    cases h
    exact .inl (.sleep hat)

theorem moved_of_step {e : Event} (h : s.step e = some s') : Moved s e s' := by
  cases e with
  | act o =>
    have hact : s.act o = some s' := h
    unfold act at hact
    split at hact
    · rename_i htrip
      exact moved_of_tripStep htrip hact
    · rename_i htrip hwake
      obtain ⟨c, hqueue, rfl⟩ := Option.map_eq_some_iff.mp hact
      exact .inl (.wake htrip hwake (eq_pid_of_ledgerGetQueue hqueue))
    · rename_i i ticket htrip hwake hwork
      split at hact
      · cases hact
      · rename_i hqueue
        obtain ⟨r, hslot, rfl⟩ := Option.map_eq_some_iff.mp hact
        exact .inl (.reap htrip hwork (eq_pid_of_ledgerGetQueue hqueue) hslot hwake)
      · rename_i c hreaper hqueue
        cases hact
        exact .inl (.handle htrip hwork (eq_pid_of_ledgerGetQueue hqueue) hreaper hwake)
    · rename_i htrip hwake hwork hcode
      exact moved_of_stmtStep ⟨htrip, hwork, hwake, hcode⟩ hact
    · cases hact
  | syscall call =>
    have hcall : (if s.callsFromUser then _ else none) = some s' := h
    split at hcall
    · rename_i huser
      cases hcall
      exact .inl (.syscall huser)
    · cases hcall
  | docCall call =>
    have hcall : (if s.docCalls call then _ else none) = some s' := h
    split at hcall
    · rename_i hdoc
      cases hcall
      exact .inl (.docCall hdoc)
    · cases hcall
  | tick dirty =>
    have htick : (if s.interruptible then s.switch dirty else none) = some s' := h
    split at htick
    · rename_i hon
      exact .inr ⟨_, _, .tick hon, htick⟩
    · cases htick
  | key scancode =>
    have hkey : (if s.interruptible then some (s.key scancode) else none) = some s' := h
    split at hkey
    · rename_i hon
      cases hkey
      exact .inl (.key hon)
    · cases hkey
  | fault dirty =>
    have hfault : s.fault dirty = some s' := h
    unfold fault at hfault
    split at hfault
    · cases hfault
    · cases hfault
    · rename_i c hreaper hqueue
      exact .inr ⟨_, _, .fault (eq_pid_of_ledgerGetQueue hqueue) hreaper, hfault⟩

theorem changed_of_step {e : Event} (h : s.step e = some s') : Changed s e s' := by
  rcases moved_of_step h with hchange | ⟨s₁, dirty, hchange, hswitch⟩
  · exact .inl hchange
  · exact .inr ⟨s₁, hchange, switched_of_switch hswitch⟩

end Sys

end Taavi
