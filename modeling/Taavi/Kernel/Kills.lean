import Taavi.Kernel.Releases

/-!
# Kills hit the task they were aimed at

A kill names its target by pid and is served three round trips later. The target is still in its
slot where no kill is made while another one for the same task is under way.
-/

namespace Taavi

open Lib List

/-- Whether a request to free the task in a slot is waiting or being handled. -/
def Ledger.requested (l : Ledger) (targetPid : ℕ) : Bool :=
  (List.range Clerk.reaper.maxEntries).any fun i =>
    (l.slot .reaper i).any fun r => r.unfinished && r.targetPid == targetPid

theorem Ledger.requested_of_slot {l : Ledger} (hval : l.Valid) {i : ℕ} {r : Request}
    (hslot : l.slot .reaper i = some r) (hunfin : r.unfinished = true) :
    l.requested r.targetPid = true := by
  refine any_eq_true.mpr ⟨i, mem_range.mpr (hval.lt_of_slot hslot), ?_⟩
  simp [hslot, hunfin]

def RoundTrip.adds (trip : RoundTrip) (phase : Phase) : Bool :=
  phase = if trip.blockFirst then .half else .enter

theorem TripOrder.adds {trip : RoundTrip} {phase next : Phase}
    (h : Sys.TripOrder (!trip.blockFirst) phase next) : trip.adds phase = true := by
  rcases h with ⟨hfst, rfl, -⟩ | ⟨hfst, rfl, -⟩ <;> simp_all [RoundTrip.adds]

namespace Sys

variable {s s₁ s' : Sys} {e : Event} {switches : Bool} {pid targetPid : ℕ}

variable {aim : ℕ}

/-- The tasks that a task has still to ask the reaper for. -/
def targetsOf (s : Sys) (pid : ℕ) : List ℕ := (s.freesOf pid).map Prod.fst

/-- Some task has still to ask the reaper for the task in a slot, or the reaper has been asked. -/
def releasing (s : Sys) (targetPid : ℕ) : Bool :=
  (List.range maxTasks).any (fun pid => targetPid ∈ s.targetsOf pid) ||
    s.kernel.ledger.requested targetPid

/-- Nobody is killed, and nobody exits, while being released, and the reaper is asked once. -/
def releasesOnce (s : Sys) : Event → Bool
  | .syscall (.kill targetPid) => !s.releasing targetPid
  | .syscall .exit => !s.releasing s.kernel.currentPid
  | .act _ =>
    (s.cpu.trip.bind fun t => if t.1.adds t.2 then t.1.call.frees else none).all fun f =>
      !s.kernel.ledger.requested f.1
  | _ => true

/-- What is being released is the task that was meant, and it is released once. -/
structure Releasing (s : Sys) : Prop where
  bounded : ∀ pid, maxTasks ≤ pid → s.kernel.identity pid = none
  aimed : ∀ pid targetPid aim, (targetPid, aim) ∈ s.freesOf pid →
    ∃ mode, s.kernel.identity targetPid = some (aim, mode)
  requested : ∀ i r, s.kernel.ledger.slot .reaper i = some r → r.unfinished = true →
    ∃ mode, s.kernel.identity r.targetPid = some (s.aims r.ticket, mode)
  unique : ∀ i r j r', s.kernel.ledger.slot .reaper i = some r → r.unfinished = true →
    s.kernel.ledger.slot .reaper j = some r' → r'.unfinished = true →
    r.targetPid = r'.targetPid → i = j
  exclusive : ∀ pid targetPid, pid ≠ targetPid → targetPid ∈ s.targetsOf pid →
    (∀ i r, s.kernel.ledger.slot .reaper i = some r → r.unfinished = true →
      r.targetPid ≠ targetPid) ∧
    (∀ q, targetPid ∈ s.targetsOf q → q = pid) ∧ (s.targetsOf pid).count targetPid ≤ 1

theorem Change.aims (h : Change s e switches s₁) {ticket : ℕ}
    (htick : ticket < s.kernel.ledger.nextTicket) : s₁.aims ticket = s.aims ticket := by
  cases h with
  | add =>
    simp only [addStep]
    split
    · exact assign_of_ne _ _ (by omega)
    · rfl
  | block | leave | collect | handle | reap | wake | enter | setBlocked | setDead | yield | kill
  | keyboard | exec | changeFocus | fetch | sweep | unstart | sleep | syscall | docCall | tick
  | key | fault => rfl

/-- The current task has asked the reaper for a task. -/
structure Asked (s s₁ : Sys) (r : Request) (aim : ℕ) : Prop where
  frees : s.freesOf s.kernel.currentPid = (r.targetPid, aim) :: s₁.freesOf s.kernel.currentPid
  fresh : s.kernel.ledger.requested r.targetPid = false
  aim : s₁.aims r.ticket = aim
  ticket : r.ticket = s.kernel.ledger.nextTicket
  identity : ∀ pid, s₁.kernel.identity pid = s.kernel.identity pid

theorem Asked.mem {r : Request} (h : Asked s s₁ r aim) :
    (r.targetPid, aim) ∈ s.freesOf s.kernel.currentPid := by
  rw [h.frees]
  exact mem_cons_self

theorem Change.reaperRequest (h : Change s e switches s₁) (hval : s.Valid)
    (hok : s.releasesOnce e = true) {i : ℕ} {r' : Request}
    (hslot' : s₁.kernel.ledger.slot .reaper i = some r') (hunfin : r'.unfinished = true) :
    (∃ r, s.kernel.ledger.slot .reaper i = some r ∧ r.unfinished = true ∧
      r'.targetPid = r.targetPid ∧ r'.ticket = r.ticket ∧ s₁.aims r'.ticket = s.aims r.ticket) ∨
      ∃ aim, Asked s s₁ r' aim := by
  rcases h.unfinished hval hslot' hunfin with ⟨r, hslot, hpre, hsame⟩ | ⟨-, hadded⟩
  · refine .inl ⟨r, hslot, hpre, hsame.2.2.1, hsame.1, ?_⟩
    rw [hsame.1]
    exact h.aims (hval.ledger.fresh _ _ _ hslot)
  · generalize hreaper : Clerk.reaper = c at hadded
    cases hadded with
    | @intro trip phase next o i r htrip horder hadds hres =>
      obtain ⟨target, aim, hcall⟩ := AddCall.frees_of_clerk hreaper.symm
      have hfrees : trip.call.frees = some (r.targetPid, aim) := by
        rw [hadds.target _ _ _ hcall, hcall]
        rfl
      have hcur := (h.isLocal hval).currentPid
      obtain ⟨l, hsame⟩ := sameTasks_addStep hval trip next o
      refine .inr ⟨aim, ?_, ?_, ?_, rfl, hsame.identity⟩
      · have hlist := frees_of_addStep (o := o) htrip horder
        rwa [← freesOf_currentPid, ← freesOf_currentPid, hcur, hfrees] at hlist
      · simpa [releasesOnce, htrip, TripOrder.adds horder, hfrees] using hok
      · simp only [addStep, hres, if_true, assign_same]
        rw [hcall]
        rfl

theorem freesOf_of_identity (hpid : pid ≠ s.kernel.currentPid)
    (hnone : s.kernel.identity pid = none) : s.freesOf pid = [] := by
  have hidle : s.threadOf pid = none := by
    unfold threadOf
    rw [if_neg hpid, Option.map_eq_none_iff.mp hnone]
    rfl
  unfold freesOf
  rw [hidle]
  rfl

theorem Releasing.lt_of_mem (hinv : s.Releasing) (hval : s.Valid)
    (h : targetPid ∈ s.targetsOf pid) : pid < maxTasks := by
  by_contra hbound
  have hpid : pid ≠ s.kernel.currentPid := by
    have := hval.current
    omega
  rw [targetsOf, freesOf_of_identity hpid (hinv.bounded pid (by omega))] at h
  cases h

theorem Releasing.releasing_of_mem (hinv : s.Releasing) (hval : s.Valid)
    (h : targetPid ∈ s.targetsOf pid) : s.releasing targetPid = true := by
  refine Bool.or_eq_true_iff.mpr (.inl (any_eq_true.mpr ⟨pid, ?_, decide_eq_true h⟩))
  exact mem_range.mpr (hinv.lt_of_mem hval h)

theorem not_releasing_of_syscall {call : Syscall} (hok : s.releasesOnce (.syscall call) = true)
    (h : (targetPid, aim) ∈ call.frees s.kernel) : s.releasing targetPid = false := by
  rcases (Syscall.frees_spec h).1 with rfl | ⟨rfl, rfl⟩
  · simpa [releasesOnce] using hok
  · simpa [releasesOnce] using hok

theorem Change.identity_of_some (h : Change s e switches s₁) (hval : s.Valid) {serial : ℕ}
    {mode : TaskMode} (hident : s.kernel.identity pid = some (serial, mode)) :
    s₁.kernel.identity pid = some (serial, mode) ∨
      ∃ r o, e = .act o ∧ s.reaps = some r ∧ r.targetPid = pid ∧ s₁.kernel.identity pid = none := by
  cases h.taskMove hval with
  | kept hkept => exact .inl ((hkept.identity pid not_false).trans hident)
  | @destroyed r o _ hreaps hkept hnone =>
    by_cases hpid : pid = r.targetPid
    · exact .inr ⟨r, o, rfl, hreaps, hpid.symm, by rw [hpid, hnone]⟩
    · exact .inl ((hkept.identity pid hpid).trans hident)
  | @created slot o _ _ hnone hkept =>
    refine .inl ((hkept.identity pid ?_).trans hident)
    rintro rfl
    rw [hnone] at hident
    cases hident

theorem exists_aim {frees : List (ℕ × ℕ)} (h : targetPid ∈ frees.map Prod.fst) :
    ∃ aim, (targetPid, aim) ∈ frees := by
  obtain ⟨⟨target, aim⟩, hmem, rfl⟩ := mem_map.mp h
  exact ⟨aim, hmem⟩

theorem mem_targetsOf (h : (targetPid, aim) ∈ s.freesOf pid) : targetPid ∈ s.targetsOf pid :=
  mem_map.mpr ⟨_, h, rfl⟩

theorem Releasing.change_aimed (hinv : s.Releasing) (hval : s.Valid)
    (h : Change s e switches s₁) (hmem : (targetPid, aim) ∈ s₁.freesOf pid) :
    ∃ mode, s₁.kernel.identity targetPid = some (aim, mode) := by
  rcases h.freesOf hval pid with hsuffix | ⟨rfl, call, rfl, heq⟩
  · have hold := hsuffix.subset hmem
    obtain ⟨mode, hident⟩ := hinv.aimed pid targetPid aim hold
    rcases h.identity_of_some hval hident with hkept | ⟨r, o, -, hreaps, rfl, hnone⟩
    · exact ⟨mode, hkept⟩
    · obtain ⟨i, ticket, -, -, hcur, hslot, hunfin⟩ := hval.reaps hreaps
      by_cases hpid : pid = r.targetPid
      · have hne : pid ≠ s₁.kernel.currentPid := by
          have hclerk := Clerk.reaper.pid_lt
          have huser := ((hval.sane _ _ _ hslot).2 rfl).1
          rw [(h.isLocal hval).currentPid]
          omega
        rw [freesOf_of_identity hne (hpid ▸ hnone)] at hmem
        cases hmem
      · exact absurd rfl ((hinv.exclusive pid _ hpid (mem_targetsOf hold)).1 i r hslot hunfin)
  · rw [heq] at hmem
    obtain ⟨-, ⟨mode, hident⟩, -⟩ := Syscall.frees_spec hmem
    rcases h.identity_of_some hval hident with hkept | ⟨_, _, hact, -⟩
    · exact ⟨mode, hkept⟩
    · cases hact

section

variable (hinv : s.Releasing) (hval : s.Valid) (hok : s.releasesOnce e = true)
  (h : Change s e switches s₁)
include hinv hval hok h

theorem Releasing.change_requested {i : ℕ} {r' : Request}
    (hslot' : s₁.kernel.ledger.slot .reaper i = some r') (hunfin : r'.unfinished = true) :
    ∃ mode, s₁.kernel.identity r'.targetPid = some (s₁.aims r'.ticket, mode) := by
  rcases h.reaperRequest hval hok hslot' hunfin with
    ⟨r, hslot, hpre, htarget, -, haims⟩ | ⟨aim, hasked⟩
  · obtain ⟨mode, hident⟩ := hinv.requested i r hslot hpre
    rw [htarget, haims]
    rcases h.identity_of_some hval hident with hkept | ⟨r₀, o, rfl, hreaps, htarget₀, -⟩
    · exact ⟨mode, hkept⟩
    · obtain ⟨j, ticket, htrip, hwork, hcur, hslot₀, hunfin₀⟩ := hval.reaps hreaps
      obtain rfl := hinv.unique i r j r₀ hslot hpre hslot₀ hunfin₀ htarget₀.symm
      rw [h.finished hval htrip (waking_of_reaps hreaps) hwork hcur hslot'] at hunfin
      cases hunfin
  · obtain ⟨mode, hident⟩ := hinv.aimed _ r'.targetPid aim hasked.mem
    exact ⟨mode, by rw [hasked.identity, hasked.aim, hident]⟩

theorem Releasing.change_unique {i j : ℕ} {r₁ r₂ : Request}
    (hslot₁ : s₁.kernel.ledger.slot .reaper i = some r₁) (h₁ : r₁.unfinished = true)
    (hslot₂ : s₁.kernel.ledger.slot .reaper j = some r₂) (h₂ : r₂.unfinished = true)
    (htarget : r₁.targetPid = r₂.targetPid) : i = j := by
  have hfresh : ∀ {j r r' aim}, s.kernel.ledger.slot .reaper j = some r → r.unfinished = true →
      r.targetPid = r'.targetPid → ¬Asked s s₁ r' aim := by
    intro j r r' aim hslot hpre htarget hasked
    have hrequested := Ledger.requested_of_slot hval.ledger hslot hpre
    rw [htarget, hasked.fresh] at hrequested
    cases hrequested
  rcases h.reaperRequest hval hok hslot₁ h₁ with ⟨r, hslot, hpre, hr, -⟩ | ⟨aim, hasked⟩ <;>
    rcases h.reaperRequest hval hok hslot₂ h₂ with
      ⟨r', hslot', hpre', hr', -⟩ | ⟨aim', hasked'⟩
  · exact hinv.unique i r j r' hslot hpre hslot' hpre' (by rw [← hr, ← hr', htarget])
  · exact absurd hasked' (hfresh hslot hpre (hr.symm.trans htarget))
  · exact absurd hasked (hfresh hslot' hpre' (hr'.symm.trans htarget.symm))
  · exact ((hval.change h).ledger.unique _ _ _ _ _ _ hslot₁ hslot₂
      (by rw [hasked.ticket, hasked'.ticket])).2

theorem Releasing.change_exclusive (hpid : pid ≠ targetPid) (hmem : targetPid ∈ s₁.targetsOf pid) :
    (∀ i r, s₁.kernel.ledger.slot .reaper i = some r → r.unfinished = true →
      r.targetPid ≠ targetPid) ∧
    (∀ q, targetPid ∈ s₁.targetsOf q → q = pid) ∧ (s₁.targetsOf pid).count targetPid ≤ 1 := by
  rcases h.freesOf hval pid with hsuffix | ⟨rfl, call, rfl, heq⟩
  · have hold : targetPid ∈ s.targetsOf pid := (hsuffix.map Prod.fst).subset hmem
    obtain ⟨hno, honly, hcount⟩ := hinv.exclusive pid targetPid hpid hold
    refine ⟨fun i r' hslot' hunfin htarget => ?_, fun q hq => ?_,
      ((hsuffix.map Prod.fst).sublist.count_le targetPid).trans hcount⟩
    · rcases h.reaperRequest hval hok hslot' hunfin with
        ⟨r, hslot, hpre, hr, -⟩ | ⟨aim, hasked⟩
      · exact hno i r hslot hpre (hr.symm.trans htarget)
      · have hlist : s.targetsOf s.kernel.currentPid =
            targetPid :: s₁.targetsOf s.kernel.currentPid := by
          unfold targetsOf
          rw [hasked.frees, map_cons, htarget]
        have hcur := honly s.kernel.currentPid (htarget ▸ mem_targetsOf hasked.mem)
        rw [hcur] at hlist
        rw [hlist, count_cons_self] at hcount
        have := count_pos_iff.mpr hmem
        omega
    · rcases h.freesOf hval q with hsuffix' | ⟨rfl, call, rfl, heq⟩
      · exact honly q ((hsuffix'.map Prod.fst).subset hq)
      · rw [targetsOf, heq] at hq
        obtain ⟨aim, hfree⟩ := exists_aim hq
        have hreleasing := hinv.releasing_of_mem hval hold
        rw [not_releasing_of_syscall hok hfree] at hreleasing
        cases hreleasing
  · rw [targetsOf, heq] at hmem
    obtain ⟨aim, hfree⟩ := exists_aim hmem
    have hnot := not_releasing_of_syscall hok hfree
    have hnobody : ∀ q, targetPid ∉ s.targetsOf q := by
      intro q hq
      rw [hinv.releasing_of_mem hval hq] at hnot
      cases hnot
    refine ⟨fun i r' hslot' hunfin htarget => ?_, fun q hq => ?_, ?_⟩
    · rcases h.reaperRequest hval hok hslot' hunfin with
        ⟨r, hslot, hpre, hr, -⟩ | ⟨aim', hasked⟩
      · have hrequested := Ledger.requested_of_slot hval.ledger hslot hpre
        rw [← hr, htarget] at hrequested
        rw [releasing, hrequested, Bool.or_true] at hnot
        cases hnot
      · exact hnobody s.kernel.currentPid (htarget ▸ mem_targetsOf hasked.mem)
    · rcases h.freesOf hval q with hsuffix | ⟨rfl, -⟩
      · exact absurd ((hsuffix.map Prod.fst).subset hq) (hnobody q)
      · rfl
    · rw [targetsOf, heq, (Syscall.frees_spec hfree).2.2 hpid]
      simp

theorem Releasing.change : s₁.Releasing where
  bounded pid hpid := by
    have hnone := hinv.bounded pid hpid
    cases h.taskMove hval with
    | kept hkept => exact (hkept.identity pid not_false).trans hnone
    | @destroyed r _ _ _ hkept hgone =>
      by_cases htarget : pid = r.targetPid
      · rw [htarget, hgone]
      · exact (hkept.identity pid htarget).trans hnone
    | created hslot _ hkept => exact (hkept.identity pid (by omega)).trans hnone
  aimed _ _ _ := hinv.change_aimed hval h
  requested _ _ := hinv.change_requested hval hok h
  unique _ _ _ _ := hinv.change_unique hval hok h
  exclusive _ _ := hinv.change_exclusive hval hok h

end

theorem Releasing.switched (hinv : s.Releasing) (h : Switched s s') : s'.Releasing := by
  have hmem : ∀ {pid targetPid}, targetPid ∈ s'.targetsOf pid → targetPid ∈ s.targetsOf pid :=
    fun {pid _} hmem => ((h.freesOf pid).map Prod.fst).subset hmem
  refine ⟨fun pid hpid => ?_, fun pid targetPid aim hfree => ?_, ?_, ?_, ?_⟩
  · rw [h.picked.identity]
    exact hinv.bounded pid hpid
  · rw [h.picked.identity]
    exact hinv.aimed pid targetPid aim ((h.freesOf pid).subset hfree)
  · rw [h.picked.ledger, h.aims]
    simp only [h.picked.identity]
    exact hinv.requested
  · rw [h.picked.ledger]
    exact hinv.unique
  · intro pid targetPid hpid hfree
    obtain ⟨hno, honly, hcount⟩ := hinv.exclusive pid targetPid hpid (hmem hfree)
    rw [h.picked.ledger]
    exact ⟨hno, fun q hq => honly q (hmem hq),
      (((h.freesOf pid).map Prod.fst).sublist.count_le targetPid).trans hcount⟩

theorem releasing_boot : boot.Releasing := by
  have hnone : ∀ pid, boot.freesOf pid = [] := by
    intro pid
    unfold freesOf
    cases hth : boot.threadOf pid with
    | none => rfl
    | some th =>
      rw [threadOf_boot hth]
      rfl
  have hempty : ∀ i r, boot.kernel.ledger.slot .reaper i = some r → False := by
    intro i r h
    simp [boot, kernelMain, Ledger.slot, Ledger.init] at h
  refine ⟨fun pid hpid => ?_, fun pid targetPid aim h => ?_, fun i r h => (hempty i r h).elim,
    fun i r j r' h => (hempty i r h).elim, fun pid targetPid _ h => ?_⟩
  · have hbound : clerkCount < maxTasks := by decide
    simp only [boot, kernelMain, Kernel.identity]
    rw [if_neg (by omega), if_neg (by omega)]
    rfl
  · rw [hnone] at h
    cases h
  · rw [targetsOf, hnone] at h
    cases h

/-- **Kills hit the task they were aimed at.** In every run in which no task is released twice, the
reaper serves and destroys only the task that was in the slot when the call was made. -/
theorem kill_destroys_only_its_target {es : List Event}
    (hrun : Run (Guarded (fun s e => s.releasesOnce e = true) Step) boot es s) :
    (∀ r, s.reaps = some r → ∃ mode, s.kernel.identity r.targetPid = some (s.aims r.ticket, mode)) ∧
    ∀ e s' pid serial mode, Step s e s' → s.kernel.identity pid = some (serial, mode) →
      s'.kernel.identity pid ≠ some (serial, mode) →
      ∃ r, s.reaps = some r ∧ r.targetPid = pid ∧ s.aims r.ticket = serial := by
  obtain ⟨hval, hinv⟩ := invariant_of_changes Releasing
    (fun _ _ _ _ hval hinv hok h => hinv.change hval hok h)
    (fun _ _ _ _ _ _ _ _ hinv h => hinv.switched h) hrun valid_boot releasing_boot
  have haimed : ∀ r, s.reaps = some r →
      ∃ mode, s.kernel.identity r.targetPid = some (s.aims r.ticket, mode) := by
    intro r hreaps
    obtain ⟨i, ticket, -, -, -, hslot, hunfinished⟩ := hval.reaps hreaps
    exact hinv.requested i r hslot hunfinished
  refine ⟨haimed, fun e s' pid serial mode hstep hbefore hafter => ?_⟩
  have hleft : ∃ r, s.reaps = some r ∧ r.targetPid = pid := by
    rcases changed_of_step hstep with hchange | ⟨s₁, hchange, hswitch⟩
    · rcases hchange.identity_of_some hval hbefore with hkept | ⟨r, _, -, hreaps, hr, -⟩
      · exact absurd hkept hafter
      · exact ⟨r, hreaps, hr⟩
    · rcases hchange.identity_of_some hval hbefore with hkept | ⟨r, _, -, hreaps, hr, -⟩
      · exact absurd ((hswitch.picked.identity pid).trans hkept) hafter
      · exact ⟨r, hreaps, hr⟩
  obtain ⟨r, hreaps, rfl⟩ := hleft
  obtain ⟨mode', hidentity⟩ := haimed r hreaps
  rw [hidentity] at hbefore
  exact ⟨r, hreaps, rfl, (Prod.mk.inj (Option.some.inj hbefore)).1⟩

/-- The first task starts another one and kills it, until the reaper has the request. -/
def killsOnce : List Event :=
  [.syscall .exec, .act .smooth, .syscall (.kill 6)] ++ List.replicate 28 (.act .smooth)

/-- The reaper serves the request, and the task is in its slot. -/
theorem kill_destroys_child : ∃ s r,
    Run (Guarded (fun s e => s.releasesOnce e = true) Step) boot killsOnce s ∧
      s.reaps = some r ∧
      ∃ mode, s.kernel.identity r.targetPid = some (s.aims r.ticket, mode) := by
  have hexec : (exec (guardStep releasesOnce Sys.step) boot killsOnce).any
      (fun s => s.reaps.isSome) = true := by
    decide +kernel
  obtain ⟨s, hrun, hs⟩ := exists_guarded_run_of_exec hexec
  obtain ⟨r, hreaps⟩ := Option.isSome_iff_exists.mp hs
  exact ⟨s, r, hrun, hreaps, (kill_destroys_only_its_target hrun).1 r hreaps⟩

/-- Two tasks kill the same task. The first one then starts a new task in its slot, and the reaper
gets the second kill. -/
def killsTwice : List Event :=
  List.flatten
    [[.syscall .exec, .act .smooth, .syscall .exec, .act .smooth, .syscall (.kill 7)],
      List.replicate 5 (.act .smooth),
      [.tick false, .tick false, .tick false, .syscall (.kill 7)],
      List.replicate 41 (.act .smooth), [.syscall .exec, .act .smooth, .tick false],
      List.replicate 11 (.act .smooth), [.tick false], List.replicate 5 (.act .smooth),
      [.tick false, .act .smooth]]

theorem exec_killsTwice : (exec Sys.step boot killsTwice).any (fun s =>
    s.reaps.any (fun r => decide (r.targetPid = 7) && decide (s.aims r.ticket = 7)) &&
    decide (s.kernel.identity 7 = some (8, .userTask)) &&
    (s.step (.act .smooth)).any fun s' => decide (s'.kernel.identity 7 = none)) = true := by
  decide +kernel

/-- The second kill was aimed at task number 7, and it destroys task number 8. -/
theorem kill_destroys_stranger : ∃ s s' r, Run Step boot killsTwice s ∧ s.reaps = some r ∧
    r.targetPid = 7 ∧ s.aims r.ticket = 7 ∧ s.kernel.identity 7 = some (8, .userTask) ∧
    Step s (.act .smooth) s' ∧ s'.kernel.identity 7 = none := by
  obtain ⟨s, hrun, hs⟩ := exists_run_of_exec exec_killsTwice
  simp only [Bool.and_eq_true, decide_eq_true_eq, Option.any_eq_true] at hs
  obtain ⟨⟨⟨r, hreaps, htarget, haim⟩, hidentity⟩, s', hstep, hgone⟩ := hs
  exact ⟨s, s', r, hrun, hreaps, htarget, haim, hidentity, hstep, hgone⟩

end Sys

end Taavi
