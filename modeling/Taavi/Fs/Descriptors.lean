import Taavi.Fat.System
import Taavi.Fs.Clerk
import Taavi.Kernel.System

/-!
# Descriptors of other tasks

`ledger_add_fs_req` and `sys_close` let the index behind the last descriptor through, and the clerk
does not compare the owner with the caller. Where neither matters, requests complete on descriptors
of the caller only.
-/

namespace Taavi.Fs

open Lib Fat

/-- The request that `ledger_add_fs_req` makes, unless it refuses the descriptor. -/
def fsRequest (callerPid : ℕ) (type : Operation) (fd : ℕ) (buf : Option (List UInt8))
    (bufferSize flags : ℕ) : Option Request :=
  if (fd < 2 ∨ maxFdEntries < fd) ∧ (type = .read ∨ type = .write) then none
  else some (newFsRequest callerPid type fd buf bufferSize flags)

/-- The request to the clerk that the code of a system call makes. -/
def requestOf (pid : ℕ) : List Stmt → Option Request
  | [.roundTrip trip] =>
    match trip.call with
    | .fs type fd buf bufferSize flags => fsRequest pid type fd buf bufferSize flags
    | _ => none
  | _ => none

/-- The system calls on a descriptor, apart from those on the keyboard and the terminal. -/
inductive FdCall where
  | read (fd : ℕ) (buf : Option (List UInt8)) (buffSize : ℕ) (hfd : fd ≠ 0)
  | write (fd : ℕ) (buf : Option (List UInt8)) (len : ℕ) (hfd : fd ≠ 1 ∧ fd ≠ 2)
  | close (fd : ℕ)

namespace FdCall

/-- The descriptor that is passed. -/
def fd : FdCall → ℕ
  | read fd .. => fd
  | write fd .. => fd
  | close fd => fd

def syscall : FdCall → Syscall
  | read fd buf buffSize _ => .read fd buf buffSize
  | write fd buf len _ => .write fd buf len
  | close fd => .close fd

def request (call : FdCall) (k : Kernel) (pid : ℕ) : Option Request :=
  requestOf pid (call.syscall.code k)

end FdCall

/-- The descriptor is an open one of the task. -/
def OwnsFd (s : State) (pid fd : ℕ) : Prop :=
  fd < maxFdEntries ∧ ∃ entry, s.fdEntryTable fd = some entry ∧ entry.ownerPid = pid

variable {m : Mount} {s t : State} {req : Request} {call : FdCall} {k : Kernel} {pid : ℕ}

theorem fsRequest_spec {type : Operation} {fd bufferSize flags : ℕ} {buf : Option (List UInt8)}
    (h : fsRequest pid type fd buf bufferSize flags = some req) :
    req.structKey = fd ∧ req.callerPid = pid % 2 ^ 16 ∧ req.requestType = type ∧
      (type = .read ∨ type = .write → fd ≤ maxFdEntries) := by
  unfold fsRequest at h
  split_ifs at h with hbad
  cases h
  refine ⟨rfl, rfl, rfl, fun htype => ?_⟩
  by_contra hlarge
  exact hbad ⟨.inr (Nat.lt_of_not_le hlarge), htype⟩

theorem FdCall.request_spec (h : call.request k pid = some req) :
    req.structKey = call.fd ∧ call.fd ≤ maxFdEntries ∧ req.callerPid = pid % 2 ^ 16 ∧
      (req.requestType = .read ∨ req.requestType = .write ∨ req.requestType = .close) := by
  cases call with
  | read fd buf buffSize hfd =>
    have hcode : (FdCall.read fd buf buffSize hfd).request k pid =
        fsRequest pid .read fd buf buffSize oRdonly := by
      simp only [request, syscall, Syscall.code, sysRead, if_neg hfd]
      rfl
    obtain ⟨hkey, hcall, htype, hbound⟩ := fsRequest_spec (hcode ▸ h)
    exact ⟨hkey, hbound (.inl rfl), hcall, .inl htype⟩
  | write fd buf len hfd =>
    have hcode : (FdCall.write fd buf len hfd).request k pid =
        fsRequest pid .write fd buf len oWronly := by
      simp only [request, syscall, Syscall.code, sysWrite, hfd.1, hfd.2, or_self, if_false]
      rfl
    obtain ⟨hkey, hcall, htype, hbound⟩ := fsRequest_spec (hcode ▸ h)
    exact ⟨hkey, hbound (.inr rfl), hcall, .inr (.inl htype)⟩
  | close fd =>
    simp only [request, syscall, Syscall.code, sysClose] at h
    split_ifs at h with hbad
    · cases h
    · obtain ⟨hkey, hcall, htype, -⟩ := fsRequest_spec h
      exact ⟨hkey, Nat.le_of_not_lt fun hlarge => hbad (.inr hlarge), hcall, .inr (.inr htype)⟩

theorem fsHandleRequest_of_closed (fuel : ℕ) (given : Given)
    (htype : req.requestType = .read ∨ req.requestType = .write ∨ req.requestType = .close)
    (hclose : s.fdEntryTable req.structKey = none) :
    fsHandleRequest m fuel req given s = some (reply req false, s) := by
  have hmap : ∀ {p : Action Bool}, p s = some (false, s) →
      (reply req <$> p) s = some (reply req false, s) := by
    intro p hp
    show (p s).bind _ = _
    rw [hp]
    rfl
  rcases htype with htype | htype | htype
  · simp only [fsHandleRequest, htype, read, get_bind, hclose]
    rfl
  · simp only [fsHandleRequest, htype]
    refine hmap ?_
    simp only [write, get_bind, hclose]
    rfl
  · simp only [fsHandleRequest, htype]
    refine hmap ?_
    simp only [close, get_bind, hclose]
    rfl

theorem fsHandleRequest_close {entry : FdEntry} (fuel : ℕ) (given : Given)
    (htype : req.requestType = .close) (hopen : s.fdEntryTable req.structKey = some entry)
    (hlive : entry.block ∈ s.fat.live) :
    fsHandleRequest m fuel req given s = some (reply req true,
      { s.setFd req.structKey none with
        fat := { s.fat with live := s.fat.live.erase entry.block } }) := by
  have hclose : close req s = some (true, { s.setFd req.structKey none with
      fat := { s.fat with live := s.fat.live.erase entry.block } }) := by
    simp only [close, get_bind, hopen]
    show ((onVolume (kfree entry.block)) (s.setFd req.structKey none)).bind _ = _
    have hfree : kfree entry.block s.fat =
        some ((), { s.fat with live := s.fat.live.erase entry.block }) := if_pos hlive
    show ((kfree entry.block s.fat).map _).bind _ = _
    rw [hfree]
    rfl
  simp only [fsHandleRequest, htype]
  show (close req s).bind _ = _
  rw [hclose]
  rfl

def openRequest (flags : ℕ) : Work where
  req := (requestOf 5 (sysOpen (some [65]) 1 flags)).getD Request.zero
  given := ⟨fun _ => 0, none⟩

theorem exists_opened : ∃ s entry, Run (Step (smallMount 4))
    (State.init emptyStart fun _ => none) [openRequest oCreat, openRequest oRdonly] s ∧
      s.fdEntryTable 3 = some entry ∧ entry.ownerPid = 5 ∧ entry.block ∈ s.fat.live := by
  let serve (flags : ℕ) (s : State) :=
    fsHandleRequest (smallMount 4) 2 (openRequest flags).req (openRequest flags).given s
  have heval : ((serve oCreat (State.init emptyStart fun _ => none)).bind fun r =>
      serve oRdonly r.2).any (fun r => (r.2.fdEntryTable 3).any fun entry =>
        decide (entry.ownerPid = 5 ∧ entry.block ∈ r.2.fat.live)) = true := by decide +kernel
  obtain ⟨⟨r, s⟩, hrun, hopen⟩ := Option.any_eq_true _ _ |>.mp heval
  obtain ⟨⟨r', u⟩, hfst, hsnd⟩ := Option.bind_eq_some_iff.mp hrun
  obtain ⟨entry, hentry, howner⟩ := Option.any_eq_true _ _ |>.mp hopen
  exact ⟨s, entry, .cons ⟨r', 2, hfst⟩ (.cons ⟨r, 2, hsnd⟩ (.nil s)), hentry,
    of_decide_eq_true howner⟩

def closeRequest (pid : ℕ) : Request := (requestOf pid (sysClose 3)).getD Request.zero

theorem closeRequest_closes {entry : FdEntry} (pid : ℕ) (hopen : s.fdEntryTable 3 = some entry)
    (hlive : entry.block ∈ s.fat.live) : ∃ t, t.fdEntryTable 3 = none ∧
      Serves m s ⟨closeRequest pid, ⟨fun _ => 0, none⟩⟩ (reply (closeRequest pid) true) t :=
  ⟨_, rfl, 0, fsHandleRequest_close 0 _ rfl hopen hlive⟩

/-- A request on a descriptor, unless that is the index behind the table or an open descriptor of
another task, completes only on an open one of the caller; otherwise it is refused, or fails and
changes nothing. -/
theorem descriptor_requests_are_isolated (hbehind : call.fd ≠ maxFdEntries)
    (hforeign : ∀ entry, s.fdEntryTable call.fd = some entry → entry.ownerPid = pid) :
    (∀ req given r t, call.request k pid = some req → Serves m s ⟨req, given⟩ r t → r.ok = true →
      OwnsFd s pid call.fd) ∧
    (¬OwnsFd s pid call.fd → call.request k pid = none ∨
      ∃ req, call.request k pid = some req ∧ ∀ fuel given,
        fsHandleRequest m fuel req given s = some (reply req false, s)) := by
  have hclosed : ∀ req, call.request k pid = some req → ¬OwnsFd s pid call.fd → ∀ fuel given,
      fsHandleRequest m fuel req given s = some (reply req false, s) := by
    intro req hreq hnot fuel given
    obtain ⟨hkey, hbound, -, htype⟩ := FdCall.request_spec hreq
    refine fsHandleRequest_of_closed fuel given htype ?_
    rw [hkey]
    cases hentry : s.fdEntryTable call.fd with
    | none => rfl
    | some entry => exact absurd ⟨by omega, entry, hentry, hforeign entry hentry⟩ hnot
  refine ⟨?_, fun hnot => ?_⟩
  · rintro req given r t hreq ⟨fuel, hserved⟩ hok
    by_contra hnot
    rw [hclosed req hreq hnot fuel given] at hserved
    obtain ⟨rfl, -⟩ := Prod.mk.inj (Option.some.inj hserved)
    cases hok
  · cases hreq : call.request k pid with
    | none => exact .inl rfl
    | some req => exact .inr ⟨req, rfl, hclosed req hreq hnot⟩

/-- A task makes a file, opens it and closes the descriptor, which is its own. -/
theorem own_descriptor_is_closed : ∃ s req r t, Run (Step (smallMount 4))
    (State.init emptyStart fun _ => none) [openRequest oCreat, openRequest oRdonly] s ∧
      (∀ k, (FdCall.close 3).request k 5 = some req) ∧
      Serves (smallMount 4) s ⟨req, ⟨fun _ => 0, none⟩⟩ r t ∧ r.ok = true ∧ OwnsFd s 5 3 := by
  obtain ⟨s, entry, hrun, hentry, howner, hlive⟩ := exists_opened
  obtain ⟨t, -, hserved⟩ := closeRequest_closes 5 hentry hlive
  have hforeign : ∀ other, s.fdEntryTable 3 = some other → other.ownerPid = 5 := by
    intro other hother
    cases hentry.symm.trans hother
    exact howner
  have hisolated : ∀ k req given r t, (FdCall.close 3).request k 5 = some req →
      Serves (smallMount 4) s ⟨req, given⟩ r t → r.ok = true → OwnsFd s 5 3 :=
    fun k => (descriptor_requests_are_isolated (by decide) hforeign).1
  exact ⟨s, closeRequest 5, _, t, hrun, fun _ => rfl, hserved, rfl,
    hisolated kernelMain _ _ _ _ rfl hserved rfl⟩

/-- Another task closes the descriptor. -/
theorem foreign_descriptor_is_closed : ∃ s req r t, Run (Step (smallMount 4))
    (State.init emptyStart fun _ => none) [openRequest oCreat, openRequest oRdonly] s ∧
      (∀ k, (FdCall.close 3).request k 6 = some req) ∧
      Serves (smallMount 4) s ⟨req, ⟨fun _ => 0, none⟩⟩ r t ∧ r.ok = true ∧ OwnsFd s 5 3 ∧
      ¬OwnsFd s 6 3 ∧ ¬OwnsFd t 5 3 := by
  obtain ⟨s, entry, hrun, hentry, howner, hlive⟩ := exists_opened
  obtain ⟨t, hclosed, hserved⟩ := closeRequest_closes 6 hentry hlive
  refine ⟨s, closeRequest 6, _, t, hrun, fun _ => rfl, hserved, rfl,
    ⟨by decide, entry, hentry, howner⟩, ?_, ?_⟩
  · rintro ⟨-, other, hother, howner'⟩
    cases hentry.symm.trans hother
    omega
  · rintro ⟨-, other, hother, -⟩
    rw [hclosed] at hother
    cases hother

end Taavi.Fs
