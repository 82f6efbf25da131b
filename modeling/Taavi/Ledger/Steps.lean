import Taavi.Ledger.Table

/-!
# How the tables change

Every operation of the protocol is one of a few steps, which keep the tables well formed: a request
has one slot, and a queue has at most one in progress, at the last index.
-/

namespace Taavi

open Lib

/-- What a clerk writes into a request when it has handled it. -/
structure Reply where
  ok : Bool
  structKey : ℕ
  buf : Option (List UInt8)
  bufferSize : ℕ

def Reply.status (reply : Reply) : Status := if reply.ok then .complete else .failed

def Request.settle (r : Request) (reply : Reply) : Request :=
  { r with
    status := reply.status
    structKey := reply.structKey
    buf := reply.buf
    bufferSize := reply.bufferSize }

/-- A clerk's work on a request is over, but nobody has collected it. -/
def Status.settled (s : Status) : Prop := s = .complete ∨ s = .failed

theorem Status.settled.ne {s : Status} (h : s.settled) :
    s ≠ .terminated ∧ s ≠ .inProgress ∧ s ≠ .pending := by
  rcases h with rfl | rfl <;> decide

inductive StepKind where
  | accept
  | fetch
  | settle
  | collect
  | giveUp
  | remove
  deriving DecidableEq

inductive LedgerStep (l : Ledger) : StepKind → Ledger → Prop
  | put {c : Clerk} {i : ℕ} {r : Request} : i < c.maxEntries → l.slot c i = none →
      r.status = .pending → LedgerStep l .accept (l.put c i r)
  | refetch {c : Clerk} {i : ℕ} {r : Request} : l.slot c i = some r → r.status = .inProgress →
      LedgerStep l .fetch (l.setLast c i)
  | fetch {c : Clerk} {i : ℕ} {r : Request} : l.slot c i = some r → r.status = .pending →
      (∀ j r', l.slot c j = some r' → r'.status ≠ .inProgress) →
      LedgerStep l .fetch ((l.setLast c i).setStatus c i .inProgress)
  | settle {c : Clerk} {i : ℕ} {r : Request} {reply : Reply} : l.slot c i = some r →
      r.status = .inProgress → LedgerStep l .settle (l.modify c i fun r => r.settle reply)
  | collect {c : Clerk} {i : ℕ} {r : Request} : l.slot c i = some r → r.status.settled →
      LedgerStep l .collect (l.setStatus c i .terminated)
  | giveUp {c : Clerk} {i : ℕ} {r : Request} : l.last c = some i → l.slot c i = some r →
      LedgerStep l .giveUp (l.setStatus c i .terminated)
  | remove : LedgerStep l .remove (ledgerRemoveRequest l)

/-- The moves of a status. Only a fault terminates a request that is not settled. -/
inductive StatusMove : StepKind → Status → Status → Prop
  | keep {kind : StepKind} {s : Status} : StatusMove kind s s
  | fetch : StatusMove .fetch .pending .inProgress
  | settle {s : Status} : s.settled → StatusMove .settle .inProgress s
  | collect {s : Status} : s.settled → StatusMove .collect s .terminated
  | giveUp {s : Status} : StatusMove .giveUp s .terminated

theorem StatusMove.of_terminated {kind : StepKind} {s s' : Status} (h : StatusMove kind s s')
    (hs : s = .terminated) : s' = .terminated := by
  cases h with
  | keep => exact hs
  | fetch => cases hs
  | settle hdone => cases hs
  | collect hdone => rfl
  | giveUp => rfl

/-- Well-formed tables. -/
structure Ledger.Valid (l : Ledger) : Prop where
  bounded : ∀ c i, c.maxEntries ≤ i → l.slot c i = none
  fresh : ∀ c i r, l.slot c i = some r → r.ticket < l.nextTicket
  unique : ∀ c i r d j r', l.slot c i = some r → l.slot d j = some r' → r.ticket = r'.ticket →
    c = d ∧ i = j
  single : ∀ c i r, l.slot c i = some r → r.status = .inProgress → l.last c = some i

theorem Ledger.valid_init : Ledger.init.Valid where
  bounded _ _ _ := rfl
  fresh _ _ _ h := by simp [Ledger.slot, Ledger.init] at h
  unique _ _ _ _ _ _ h := by simp [Ledger.slot, Ledger.init] at h
  single _ _ _ h := by simp [Ledger.slot, Ledger.init] at h

section

variable {l l' : Ledger} {c d : Clerk} {i j : ℕ} {r r' : Request}

variable {kind : StepKind} {f : Request → Request}

theorem slot_ledgerRemoveRequest :
    (ledgerRemoveRequest l).slot c i =
      if i < c.maxEntries ∧ l.hasStatus c .terminated i = true then none else l.slot c i := rfl

theorem Ledger.Valid.lt_of_slot (hval : l.Valid) (h : l.slot c i = some r) : i < c.maxEntries := by
  by_contra hbound
  rw [hval.bounded c i (by omega)] at h
  cases h

theorem slot_of_remove (hval : l.Valid) (h : (ledgerRemoveRequest l).slot c i = some r) :
    l.slot c i = some r ∧ r.status ≠ .terminated := by
  rw [slot_ledgerRemoveRequest] at h
  by_cases hgone : i < c.maxEntries ∧ l.hasStatus c .terminated i = true
  · simp [hgone] at h
  · rw [if_neg hgone] at h
    exact ⟨h, fun hterm =>
      hgone ⟨hval.lt_of_slot h, (l.hasStatus_iff c i).mpr ⟨r, h, hterm⟩⟩⟩

theorem Ledger.Valid.modify (hval : l.Valid)
    (htick : ∀ r, (f r).ticket = r.ticket)
    (hsingle : ∀ r, l.slot c i = some r → (f r).status = .inProgress → l.last c = some i) :
    (l.modify c i f).Valid where
  bounded d j hj := by
    have hnone := hval.bounded d j hj
    rw [Ledger.slot_modify]
    split
    · rename_i heq
      rw [← heq.1, ← heq.2, hnone]
      rfl
    · exact hnone
  fresh d j r h := by
    rw [Ledger.slot_modify] at h
    split at h
    · obtain ⟨r₀, hr₀, rfl⟩ := Option.map_eq_some_iff.mp h
      rw [htick]
      exact hval.fresh c i r₀ hr₀
    · exact hval.fresh d j r h
  unique d j r e m r' h h' heq := by
    rw [Ledger.slot_modify] at h h'
    split at h <;> split at h'
    · rename_i h₁ h₂
      exact ⟨h₁.1.trans h₂.1.symm, h₁.2.trans h₂.2.symm⟩
    · rename_i h₁ h₂
      obtain ⟨r₀, hr₀, rfl⟩ := Option.map_eq_some_iff.mp h
      rw [htick] at heq
      rw [h₁.1, h₁.2]
      exact hval.unique c i r₀ e m r' hr₀ h' heq
    · rename_i h₁ h₂
      obtain ⟨r₀, hr₀, rfl⟩ := Option.map_eq_some_iff.mp h'
      rw [htick] at heq
      rw [h₂.1, h₂.2]
      exact hval.unique d j r c i r₀ h hr₀ heq
    · exact hval.unique d j r e m r' h h' heq
  single d j r h hstat := by
    rw [Ledger.slot_modify] at h
    rw [Ledger.last_modify]
    split at h
    · rename_i heq
      obtain ⟨r₀, hr₀, rfl⟩ := Option.map_eq_some_iff.mp h
      rw [heq.1, heq.2]
      exact hsingle r₀ hr₀ hstat
    · exact hval.single d j r h hstat

theorem Ledger.Valid.setLast (hval : l.Valid)
    (hother : ∀ j r, l.slot c j = some r → r.status = .inProgress → j = i) :
    (l.setLast c i).Valid where
  bounded d j hj := by
    rw [Ledger.slot_setLast]
    exact hval.bounded d j hj
  fresh d j r h := by
    rw [Ledger.slot_setLast] at h
    exact hval.fresh d j r h
  unique d j r e m r' h h' := by
    rw [Ledger.slot_setLast] at h h'
    exact hval.unique d j r e m r' h h'
  single d j r h hstat := by
    rw [Ledger.slot_setLast] at h
    rw [Ledger.last_setLast]
    split
    · rename_i heq
      subst heq
      rw [hother j r h hstat]
    · exact hval.single d j r h hstat

theorem LedgerStep.valid (hstep : LedgerStep l kind l') (hval : l.Valid) : l'.Valid := by
  cases hstep with
  | @put c i r hi hempty hpend =>
    refine ⟨fun d j hj => ?_, fun d j r' h => ?_, fun d j r₁ e m r₂ h₁ h₂ heq => ?_,
      fun d j r' h hstat => ?_⟩
    · rw [Ledger.slot_put]
      split
      · rename_i heq
        rw [heq.1, heq.2] at hj
        omega
      · exact hval.bounded d j hj
    · rw [Ledger.slot_put] at h
      rw [Ledger.nextTicket_put]
      split at h
      · cases h
        exact Nat.lt_succ_self _
      · exact (hval.fresh d j r' h).trans (Nat.lt_succ_self _)
    · rw [Ledger.slot_put] at h₁ h₂
      split at h₁ <;> split at h₂
      · rename_i h₃ h₄
        exact ⟨h₃.1.trans h₄.1.symm, h₃.2.trans h₄.2.symm⟩
      · cases h₁
        exact absurd heq.symm (hval.fresh e m r₂ h₂).ne
      · cases h₂
        exact absurd heq (hval.fresh d j r₁ h₁).ne
      · exact hval.unique d j r₁ e m r₂ h₁ h₂ heq
    · rw [Ledger.slot_put] at h
      rw [Ledger.last_put]
      split at h
      · cases h
        simp [hpend] at hstat
      · exact hval.single d j r' h hstat
  | @refetch c i r hslot hstat =>
    refine hval.setLast fun j r' h' hstat' => ?_
    have hlast := hval.single c i r hslot hstat
    have hlast' := hval.single c j r' h' hstat'
    exact Option.some.inj (hlast'.symm.trans hlast)
  | @fetch c i r hslot hstat hnone =>
    have hlast : (l.setLast c i).Valid :=
      hval.setLast fun j r' h' hstat' => absurd hstat' (hnone j r' h')
    refine hlast.modify (fun r => rfl) fun r' _ _ => ?_
    rw [Ledger.last_setLast, if_pos rfl]
  | @settle c i r reply hslot hstat =>
    refine hval.modify (fun r => rfl) fun r' _ h => ?_
    simp only [Request.settle, Reply.status] at h
    split at h <;> cases h
  | collect hslot hdone =>
    exact hval.modify (fun r => rfl) fun r' _ h => by simp at h
  | giveUp hlast hslot =>
    exact hval.modify (fun r => rfl) fun r' _ h => by simp at h
  | remove =>
    refine ⟨fun d j hj => ?_, fun d j r h => ?_, fun d j r e m r' h h' => ?_, fun d j r h => ?_⟩
    · rw [slot_ledgerRemoveRequest, hval.bounded d j hj]
      split <;> rfl
    · exact hval.fresh d j r (slot_of_remove hval h).1
    · exact hval.unique d j r e m r' (slot_of_remove hval h).1 (slot_of_remove hval h').1
    · exact hval.single d j r (slot_of_remove hval h).1

/-- The parts of a request that nobody changes while it exists. -/
def Request.Same (r r' : Request) : Prop :=
  r'.ticket = r.ticket ∧ r'.callerPid = r.callerPid ∧ r'.targetPid = r.targetPid ∧
    r'.requestType = r.requestType ∧ r'.clerkPid = r.clerkPid

theorem slot_modify_some (hsame : ∀ r : Request, r.Same (f r))
    (hmove : ∀ r, l.slot d j = some r → StatusMove kind r.status (f r).status)
    (h : l.slot c i = some r) :
    ∃ r', (l.modify d j f).slot c i = some r' ∧ r.Same r' ∧ StatusMove kind r.status r'.status := by
  rw [Ledger.slot_modify]
  by_cases hhere : c = d ∧ i = j
  · obtain ⟨rfl, rfl⟩ := hhere
    exact ⟨f r, by simp [h], hsame r, hmove r h⟩
  · exact ⟨r, by rwa [if_neg hhere], ⟨rfl, rfl, rfl, rfl, rfl⟩, .keep⟩

theorem slot_modify_none (h : l.slot c i = none) : (l.modify d j f).slot c i = none := by
  rw [Ledger.slot_modify]
  by_cases hhere : c = d ∧ i = j
  · obtain ⟨rfl, rfl⟩ := hhere
    simp [h]
  · rwa [if_neg hhere]

theorem LedgerStep.slot_some (hstep : LedgerStep l kind l')
    (h : l.slot c i = some r) :
    (∃ r', l'.slot c i = some r' ∧ r.Same r' ∧ StatusMove kind r.status r'.status) ∨
      (l'.slot c i = none ∧ r.status = .terminated ∧ kind = .remove) := by
  have hsame : r.Same r := ⟨rfl, rfl, rfl, rfl, rfl⟩
  cases hstep with
  | @put d j r' hj hempty hpend =>
    refine .inl ⟨r, ?_, hsame, .keep⟩
    rw [Ledger.slot_put, if_neg]
    · exact h
    · rintro ⟨rfl, rfl⟩
      simp [hempty] at h
  | refetch hslot hstat => exact .inl ⟨r, by rwa [Ledger.slot_setLast], hsame, .keep⟩
  | @fetch d j r' hslot hstat hnone =>
    refine .inl (slot_modify_some (fun r => ⟨rfl, rfl, rfl, rfl, rfl⟩) (fun r₀ h₀ => ?_) ?_)
    · rw [Ledger.slot_setLast, hslot] at h₀
      cases h₀
      rw [hstat]
      exact .fetch
    · rwa [Ledger.slot_setLast]
  | @settle d j r' reply hslot hstat =>
    refine .inl (slot_modify_some (fun r => ⟨rfl, rfl, rfl, rfl, rfl⟩) (fun r₀ h₀ => ?_) h)
    cases hslot.symm.trans h₀
    rw [hstat]
    refine .settle ?_
    cases hok : reply.ok <;> simp [Request.settle, Reply.status, Status.settled, hok]
  | @collect d j r' hslot hdone =>
    refine .inl (slot_modify_some (fun r => ⟨rfl, rfl, rfl, rfl, rfl⟩) (fun r₀ h₀ => ?_) h)
    cases hslot.symm.trans h₀
    exact .collect hdone
  | giveUp hlast hslot =>
    exact .inl (slot_modify_some (fun r => ⟨rfl, rfl, rfl, rfl, rfl⟩) (fun r₀ h₀ => .giveUp) h)
  | remove =>
    rw [slot_ledgerRemoveRequest]
    by_cases hgone : i < c.maxEntries ∧ l.hasStatus c .terminated i = true
    · obtain ⟨r', h', hterm⟩ := (l.hasStatus_iff c i).mp hgone.2
      obtain rfl : r' = r := Option.some.inj (h'.symm.trans h)
      exact .inr ⟨by rw [if_pos hgone], hterm, rfl⟩
    · exact .inl ⟨r, by rwa [if_neg hgone], hsame, .keep⟩

theorem LedgerStep.slot_none (hstep : LedgerStep l kind l')
    (h : l.slot c i = none) :
    l'.slot c i = none ∨ ∃ r, l'.slot c i = some r ∧ kind = .accept ∧ r.status = .pending ∧
      r.ticket = l.nextTicket := by
  cases hstep with
  | @put d j r' hj hempty hpend =>
    rw [Ledger.slot_put]
    by_cases hhere : c = d ∧ i = j
    · exact .inr ⟨_, if_pos hhere, rfl, hpend, rfl⟩
    · exact .inl (by rwa [if_neg hhere])
  | refetch hslot hstat => exact .inl (by rwa [Ledger.slot_setLast])
  | fetch hslot hstat hnone => exact .inl (slot_modify_none (by rwa [Ledger.slot_setLast]))
  | settle hslot hstat => exact .inl (slot_modify_none h)
  | collect hslot hdone => exact .inl (slot_modify_none h)
  | giveUp hlast hslot => exact .inl (slot_modify_none h)
  | remove =>
    refine .inl ?_
    rw [slot_ledgerRemoveRequest]
    split
    · rfl
    · exact h

theorem LedgerStep.nextTicket_le (hstep : LedgerStep l kind l') : l.nextTicket ≤ l'.nextTicket := by
  cases hstep with
  | put => exact Nat.le_succ _
  | refetch | fetch | settle | collect | giveUp | remove => exact le_rfl

/-- The request with a ticket has been given out, and it is terminated or gone. -/
def Ledger.Finished (ticket : ℕ) (l : Ledger) : Prop :=
  ticket < l.nextTicket ∧ ∀ c i r, l.slot c i = some r → r.ticket = ticket → r.status = .terminated

theorem Ledger.Valid.finished (hval : l.Valid) (h : l.slot c i = some r)
    (hterm : r.status = .terminated) : l.Finished r.ticket := by
  refine ⟨hval.fresh c i r h, fun d j r' h' htick => ?_⟩
  obtain ⟨rfl, rfl⟩ := hval.unique d j r' c i r h' h htick
  cases h'.symm.trans h
  exact hterm

theorem LedgerStep.finished {ticket : ℕ} (hstep : LedgerStep l kind l')
    (h : l.Finished ticket) : l'.Finished ticket := by
  refine ⟨h.1.trans_le hstep.nextTicket_le, fun d j r' h' htick => ?_⟩
  cases hold : l.slot d j with
  | none =>
    rcases hstep.slot_none hold with hnone | ⟨r₁, hr₁, -, -, hnew⟩
    · simp [hnone] at h'
    · cases hr₁.symm.trans h'
      exact absurd (htick.symm.trans hnew) h.1.ne
  | some r₀ =>
    rcases hstep.slot_some hold with ⟨r₁, hr₁, hsame, hmove⟩ | ⟨hnone, -⟩
    · cases hr₁.symm.trans h'
      exact hmove.of_terminated (h.2 d j r₀ hold (hsame.1.symm.trans htick))
    · simp [hnone] at h'

theorem ledgerFetchNextReq_cases (hval : l.Valid) (c : Clerk) :
    (ledgerFetchNextReq l c.pid = (l, none) ∧
        ∀ i r, l.slot c i = some r → r.unfinished = false) ∨
      (∃ i r, ledgerFetchNextReq l c.pid = (l.setLast c i, some i) ∧ l.slot c i = some r ∧
        r.status = .inProgress) ∨
      ∃ i r, ledgerFetchNextReq l c.pid = ((l.setLast c i).setStatus c i .inProgress, some i) ∧
        l.slot c i = some r ∧ r.status = .pending ∧
        ∀ j r', l.slot c j = some r' → r'.status ≠ .inProgress := by
  have hnone : ∀ {status : Status}, firstSlot c.maxEntries (l.hasStatus c status) = none →
      ∀ j r', l.slot c j = some r' → r'.status ≠ status := by
    intro status hscan j r' hslot hstat
    have hfalse := firstSlot_eq_none.mp hscan j (hval.lt_of_slot hslot)
    rw [(l.hasStatus_iff c j).mpr ⟨r', hslot, hstat⟩] at hfalse
    simp at hfalse
  unfold ledgerFetchNextReq
  rw [ledgerGetQueue_pid]
  cases hprog : firstSlot c.maxEntries (l.hasStatus c .inProgress) with
  | some i =>
    obtain ⟨r, hslot, hstat⟩ := (l.hasStatus_iff c i).mp (firstSlot_eq_some.mp hprog).2.1
    exact .inr (.inl ⟨i, r, by simp [hprog], hslot, hstat⟩)
  | none =>
    cases hpend : firstSlot c.maxEntries (l.hasStatus c .pending) with
    | some i =>
      obtain ⟨r, hslot, hstat⟩ := (l.hasStatus_iff c i).mp (firstSlot_eq_some.mp hpend).2.1
      exact .inr (.inr ⟨i, r, by simp [hprog, hpend], hslot, hstat, hnone hprog⟩)
    | none =>
      refine .inl ⟨by simp [hprog, hpend], fun i r hslot => ?_⟩
      simp [Request.unfinished, hnone hprog i r hslot, hnone hpend i r hslot]

theorem ledgerCollect_cases (l : Ledger) (callerPid : ℕ) (c : Clerk) (out : Bool) :
    (ledgerCollect l callerPid c.pid out = (l, ⟨statusError, none⟩) ∧
        collectSlot l callerPid c = none) ∨
      ∃ i r, collectSlot l callerPid c = some i ∧ l.slot c i = some r ∧
        r.callerPid = callerPid ∧ r.status.settled ∧
        ledgerCollect l callerPid c.pid out = (l.setStatus c i .terminated, r.result out) := by
  unfold ledgerCollect
  rw [ledgerGetQueue_pid]
  cases hscan : collectSlot l callerPid c with
  | none => exact .inl ⟨by simp [hscan], rfl⟩
  | some i =>
    have hfound := (firstSlot_eq_some.mp hscan).2.1
    cases hslot : l.slot c i with
    | none => simp [hslot] at hfound
    | some r =>
      have hcollect : r.callerPid = callerPid ∧ (r.status = .complete ∨ r.status = .failed) := by
        simpa [hslot, Request.collectable] using hfound
      exact .inr ⟨i, r, rfl, hslot, hcollect.1, hcollect.2, by simp [hscan, hslot]⟩

end

end Taavi
