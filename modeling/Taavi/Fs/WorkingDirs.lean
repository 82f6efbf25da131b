import Taavi.Fat.System
import Taavi.Fs.Directions

/-!
# Where tasks are

FIND can take a task into a file, and backwards without an entry to cluster zero. Without these two,
the entries of `dir_map` are directories, one for a task.
-/

namespace Taavi.Fs

open Lib Fat List Option

variable {m : Mount} {s t u : State} {pid i j cur prev : ℕ} {entry : DirTraversal} {work : Work}
  {path : List UInt8} {r : Reply}

section

def Work.Finds (work : Work) (path : List UInt8) : Prop :=
  work.req.requestType = .find ∧ pathOf work.req = some path

theorem grows_find (m : Mount) (req : Request) : Grows fun n => find m n req := by
  refine (grows_const _).bind fun path => (grows_const _).bind fun s => ?_
  by_cases hback : isBackwards path = true
  · simp only [if_pos hback]
    cases dirGetDirection s req.callerPid with
    | none => exact grows_const _
    | some entry =>
      exact (grows_onVolume (grows_findParentCluster m entry.prevCluster)).bind
        fun parent => grows_const _
  · simp only [if_neg hback]
    exact (grows_onVolume (grows_findLoop m _ _ _)).bind fun found => grows_const _

variable (hm : Ready m) (hv : WellFormed m (volume m s.fat))
  (hown : Own s work.req.callerPid) (hwork : work.Finds path)
  (hstart : IsDirectory m (volume m s.fat)
    (startingCluster m s work.req.callerPid))
include hm hv hown hwork hstart

theorem exists_serves : ∃ ok t, Serves m s work (reply work.req ok) t ∧
    Moved m s work.req.callerPid path ok t := by
  have hfind := find_spec hm hv hown hwork.2 hstart (Nat.lt_succ_self _)
  obtain ⟨ok, t, hrun, hmoved⟩ := hfind
  refine ⟨ok, t, ⟨m.maximumClusterSize + 2, ?_⟩, hmoved⟩
  simp only [fsHandleRequest, hwork.1]
  show (find m (m.maximumClusterSize + 2) work.req s).bind _ = _
  rw [hrun]
  rfl

theorem Serves.moved (h : Serves m s work r t) :
    r = reply work.req r.ok ∧ Moved m s work.req.callerPid path r.ok t := by
  obtain ⟨fuel, hserve⟩ := h
  obtain ⟨ok, u, ⟨fuel', hserve'⟩, hmoved⟩ := exists_serves hm hv hown hwork hstart
  have hgrows : Grows fun n => fsHandleRequest m n work.req work.given := by
    simp only [fsHandleRequest, hwork.1]
    exact (grows_find m work.req).map
  obtain ⟨rfl, rfl⟩ := Prod.mk.inj (hgrows.agree hserve hserve')
  exact ⟨rfl, hmoved⟩

end

/-- The entries of `dir_map` are for directories, one for a task, and their blocks are allocated. -/
structure Homes (m : Mount) (s : State) : Prop where
  current : ∀ ⦃i entry⦄, s.dirMap i = some entry →
    IsDirectory m (volume m s.fat) entry.currentCluster
  previous : ∀ ⦃i entry⦄, s.dirMap i = some entry →
    IsDirectory m (volume m s.fat) entry.prevCluster
  bound : ∀ ⦃i entry⦄, s.dirMap i = some entry → i < maxTasks
  unique : ∀ ⦃i j entry entry'⦄, s.dirMap i = some entry → s.dirMap j = some entry' →
    entry.ownerPid = entry'.ownerPid → i = j
  backed : Backed (List.range maxTasks) (fun i => (s.dirMap i).map DirTraversal.block) s.fat.live

theorem homes_init (m : Mount) (fat : Fat.State) (behind : ℕ → Option FdEntry) :
    Homes m (State.init fat behind) := by
  refine ⟨?_, ?_, ?_, ?_, .empty fun _ => rfl⟩ <;> intro i <;> intros <;> contradiction

theorem dirGetDirection_init (fat : Fat.State) (behind : ℕ → Option FdEntry) (pid : ℕ) :
    dirGetDirection (State.init fat behind) pid = none := by
  cases h : dirGetDirection (State.init fat behind) pid with
  | none => rfl
  | some entry =>
    obtain ⟨i, -, hi, -⟩ := entry_of_dirGetDirection h
    cases hi

theorem startingCluster_init (m : Mount) (fat : Fat.State) (behind : ℕ → Option FdEntry)
    (pid : ℕ) : startingCluster m (State.init fat behind) pid = m.rootCluster := by
  rw [startingCluster, dirGetDirection_init]

theorem Homes.own (h : Homes m s) (pid : ℕ) : Own s pid := by
  refine ⟨?_, ?_⟩
  · intro i j entry entry' _ _ hi hj howner howner'
    exact h.unique hi hj (howner.trans howner'.symm)
  · intro i entry hi hentry _
    exact h.backed.mem (mem_range.mpr hi) (by rw [hentry]; rfl)

theorem Homes.isDirectory_startingCluster (h : Homes m s) (pid : ℕ) :
    IsDirectory m (volume m s.fat) (startingCluster m s pid) := by
  unfold startingCluster
  cases hentry : dirGetDirection s pid with
  | none => exact .root
  | some entry =>
    obtain ⟨i, -, hi, -⟩ := entry_of_dirGetDirection hentry
    exact h.current hi

theorem Homes.searched (h : Homes m s) (hu : Searched m s u) : Homes m u := by
  obtain ⟨-, hdirs, hvol, hlive⟩ := hu
  refine ⟨?_, ?_, ?_, ?_, ?_⟩
  · rw [hdirs, hvol]
    exact h.current
  · rw [hdirs, hvol]
    exact h.previous
  · rw [hdirs]
    exact h.bound
  · rw [hdirs]
    exact h.unique
  · rw [hdirs]
    exact h.backed.mono hlive.sublist.subperm

theorem Homes.forgets {slot : Option ℕ} (h : Homes m s) (hu : Forgets s pid slot u) :
    Homes m u := by
  have hold : ∀ i entry, u.dirMap i = some entry → s.dirMap i = some entry :=
    fun i entry hentry => (hu.of_dirMap hentry).1
  have hvol := hu.volume m
  refine ⟨?_, ?_, ?_, ?_, ?_⟩
  · intro i entry hentry
    rw [hvol]
    exact h.current (hold i entry hentry)
  · intro i entry hentry
    rw [hvol]
    exact h.previous (hold i entry hentry)
  · exact fun i entry hentry => h.bound (hold i entry hentry)
  · exact fun i j entry entry' hi hj => h.unique (hold i entry hi) (hold j entry' hj)
  · cases hu with
    | absent _ => exact h.backed
    | @freed i entry hi hentry _ _ =>
      have hblock : (s.dirMap i).map DirTraversal.block = some entry.block := by rw [hentry]; rfl
      have hmap := map_assign DirTraversal.block s.dirMap i none
      have hreleased := h.backed.release nodup_range (mem_range.mpr hi) hblock
      exact hmap ▸ hreleased

theorem Homes.set (h : Homes m s) (hi : i < maxTasks) (hempty : s.dirMap i = none)
    (hnone : ∀ ⦃j other⦄, s.dirMap j = some other → other.ownerPid ≠ pid)
    (hcur : IsDirectory m (volume m s.fat) cur)
    (hprev : prev ≤ 2 ∨ IsDirectory m (volume m s.fat) prev) :
    Homes m (s.malloc.setDir i (some (newDirection m s.fat.mallocs pid cur prev))) := by
  have hcases : ∀ j other,
      (s.malloc.setDir i (some (newDirection m s.fat.mallocs pid cur prev))).dirMap j = some other →
      (j = i ∧ other = newDirection m s.fat.mallocs pid cur prev) ∨ s.dirMap j = some other := by
    intro j other hj
    by_cases hji : j = i
    · subst hji
      exact .inl ⟨rfl, (Option.some.inj ((assign_same ..).symm.trans hj)).symm⟩
    · exact .inr ((assign_of_ne _ _ hji).symm.trans hj)
  refine ⟨?_, ?_, ?_, ?_, ?_⟩
  · intro j other hj
    rcases hcases j other hj with ⟨-, rfl⟩ | hold
    · exact hcur
    · exact h.current hold
  · intro j other hj
    rcases hcases j other hj with ⟨-, rfl⟩ | hold
    · show IsDirectory m _ (if prev ≤ 2 then m.rootCluster else prev)
      split_ifs with hlow
      · exact .root
      · exact hprev.resolve_left hlow
    · exact h.previous hold
  · intro j other hj
    rcases hcases j other hj with ⟨rfl, -⟩ | hold
    · exact hi
    · exact h.bound hold
  · intro j j' other other' hj hj' howner
    rcases hcases j other hj with ⟨rfl, rfl⟩ | hold
    · rcases hcases j' other' hj' with ⟨rfl, -⟩ | hold'
      · rfl
      · exact absurd howner.symm (hnone hold')
    · rcases hcases j' other' hj' with ⟨rfl, rfl⟩ | hold'
      · exact absurd howner (hnone hold)
      · exact h.unique hold hold' howner
  · have hmap := map_assign DirTraversal.block s.dirMap i
      (some (newDirection m s.fat.mallocs pid cur prev))
    have hfree : (s.dirMap i).map DirTraversal.block = none := by rw [hempty]; rfl
    exact hmap ▸ h.backed.add nodup_range (mem_range.mpr hi) hfree

theorem Homes.mapped {ok : Bool} (h : Homes m s) (ht : Mapped m s pid cur prev ok t)
    (hcur : IsDirectory m (volume m s.fat) cur)
    (hprev : prev ≤ 2 ∨ IsDirectory m (volume m s.fat) prev) :
    Homes m t := by
  cases ht with
  | full _ => exact h
  | @failed slot u _ hu =>
    have hforgets := h.forgets hu
    exact { hforgets with }
  | @set slot u i hu hi hempty =>
    have hforgets := h.forgets hu
    have hnone : ∀ ⦃j other⦄, u.dirMap j = some other → other.ownerPid ≠ pid :=
      fun j other hj => (hu.of_dirMap hj).2 (hforgets.bound hj)
    rw [← hu.volume] at hcur hprev
    exact hforgets.set hi hempty hnone hcur hprev

/-- What a path forwards stands for is a directory. A path backwards is used by a task with an
entry, whose previous directory is named in the first cluster of the root directory if at all. -/
structure Leads (m : Mount) (s : State) (pid : ℕ) (path : List UInt8) : Prop where
  down : isBackwards path = false → ∀ r, Resolves m.toGeometry (volume m.toGeometry s.fat)
    (startingCluster m s pid) (skipSlash path) (some r) → r.attr &&& attrDirectory ≠ 0
  /-- The slots of the root directory that have the previous directory are in its first cluster. -/
  up : isBackwards path = true → ∃ entry, dirGetDirection s pid = some entry ∧
    ∀ k c i, Chain (volume m.toGeometry s.fat).cells m.rootCluster k → c ∈ k →
      i < calculateMaxDirEntries m.toGeometry →
      (slot (volume m.toGeometry s.fat) c i).cluster = entry.prevCluster → c = m.rootCluster

theorem Target.isDirectory (h : Target m s pid path (some (cur, prev))) (hhomes : Homes m s)
    (hleads : Leads m s pid path) :
    IsDirectory m (volume m s.fat) cur ∧ (prev ≤ 2 ∨ IsDirectory m (volume m s.fat) prev) := by
  generalize hout : some (cur, prev) = out at h
  cases h with
  | @down r hback hr =>
    cases r with
    | none => cases hout
    | some r =>
      cases hout
      obtain ⟨hdir, c, i, hlist, hclus, hattr, -⟩ :=
        hr.listed (hhomes.isDirectory_startingCluster pid)
      refine ⟨?_, .inr hdir⟩
      rw [← hclus]
      refine .child hdir hlist ?_
      rw [Entry.IsDir, hattr]
      exact hleads.down hback r hr
  | @up entry k hback hentry hk =>
    obtain ⟨entry', hentry', hroot⟩ := hleads.up hback
    cases hentry'.symm.trans hentry
    obtain ⟨parent, hpar, htarget⟩ := map_eq_some_iff.mp hout.symm
    cases htarget
    obtain ⟨i, -, hi, -⟩ := entry_of_dirGetDirection hentry
    refine ⟨hhomes.previous hi, ?_⟩
    cases parent with
    | none => exact .inl (Nat.zero_le 2)
    | some c =>
      obtain ⟨hc, i, hlt, hclus⟩ := parentIn_eq_some hpar
      right
      rw [getD_some, hroot k c i hk hc hlt hclus]
      exact .root
  | lost hback hnone =>
    obtain ⟨entry, hentry, -⟩ := hleads.up hback
    rw [hnone] at hentry
    cases hentry

theorem Moved.homes {ok : Bool} (h : Moved m s pid path ok t) (hhomes : Homes m s)
    (hleads : Leads m s pid path) : Homes m t := by
  cases h with
  | failed _ hsearch => exact hhomes.searched hsearch
  | mapped htarget hsearch hmap =>
    obtain ⟨hcur, hprev⟩ := htarget.isDirectory hhomes hleads
    rw [← hsearch.volume] at hcur hprev
    exact (hhomes.searched hsearch).mapped hmap hcur hprev

theorem Moved.volume {ok : Bool} (h : Moved m s pid path ok t) :
    volume m t.fat = volume m s.fat := by
  cases h with
  | failed _ hsearch => exact hsearch.volume
  | mapped _ hsearch hmap => exact (hmap.volume _).trans hsearch.volume

theorem Moved.dirMap_of_failed (h : Moved m s pid path false t) (hheap : ¬HeapFails m) :
    t.dirMap = s.dirMap := by
  cases h with
  | failed _ hsearch => exact hsearch.dirs
  | mapped _ hsearch hmap =>
    cases hmap with
    | full _ => exact hsearch.dirs
    | failed hfail => exact absurd hfail hheap

/-- No entry of a directory for a file has the cluster of a directory. -/
def FilesApart (g : Geometry) (v : Volume) : Prop :=
  ∀ d c i, IsDirectory g v d → Listed g v d c i → ¬(slot v c i).IsDir →
    ¬IsDirectory g v (slot v c i).cluster

/-- The cluster is the first one of a directory. It is not zero, and no entry for a file has it. -/
structure IsHome (g : Geometry) (v : Volume) (home : ℕ) : Prop where
  directory : IsDirectory g v home
  nonzero : home ≠ 0
  notFile : ∀ d c i, IsDirectory g v d → Listed g v d c i → ¬(slot v c i).IsDir →
    (slot v c i).cluster ≠ home

theorem isHome_of_isDirectory {g : Geometry} {fat : Fat.State} {home : ℕ}
    (hv : WellFormed g (volume g fat)) (hfiles : FilesApart g (volume g fat))
    (hhome : IsDirectory g (volume g fat) home) : IsHome g (volume g fat) home := by
  refine ⟨hhome, ?_, fun d c i hd hlist hfile heq => ?_⟩
  · have hlow := (inRange_of_used (hv.directories home hhome).used).1
    omega
  · exact hfiles d c i hd hlist hfile (heq ▸ hhome)

abbrev FindStep (m : Mount) : State → Work → State → Prop :=
  Guarded (fun s work => ∃ path, work.Finds path ∧ Leads m s work.req.callerPid path) (Step m)

def findWork (pid : ℕ) (path : List UInt8) : Work where
  req := { Request.zero with requestType := .find, callerPid := pid, buf := some path }
  given := ⟨fun _ => 0, none⟩

/-- A volume with the directories `A`, `A/B` and `A/B/C`, each with one cluster, and no files. -/
@[mk_iff] structure Nested (v : Volume) : Prop where
  last : ∀ c ∈ [2, 3, 4, 5], v.cells c = .last
  slots : ∀ c ∈ [2, 3, 4, 5], ∀ i < 16, (slot v c i).Live →
    (slot v c i).cluster ∈ [2, 3, 4, 5] ∧ (slot v c i).IsDir

instance (v : Volume) : Decidable (Nested v) := decidable_of_iff' _ (nested_iff v)

/-- `fat32_mkdirp` for `A/B/C` in the root directory. -/
def makeNested : Op := .mkdirp 2 [65, 47, 66, 47, 67]

theorem exists_nested {p : Fat.State → Bool}
    (h : (makeNested.run (smallMount 8) 0 emptyStart).any (fun r => p r.2) = true) :
    ∃ fat, Consistent (smallGeometry 8) (volume (smallGeometry 8) fat) ∧
      Nested (volume (smallGeometry 8) fat) ∧ p fat = true := by
  have hm : Ready (smallMount 8) := ready_smallMount (by decide)
  have hv : Consistent (smallGeometry 8) (volume (smallGeometry 8) emptyStart) :=
    consistent_emptyStart (by decide) (by decide)
  have hsegs : Segments [65, 47, 66, 47, 67] 3 := .some rfl (.some rfl (.some rfl (.none rfl)))
  have hfits : makeNested.Fits (smallGeometry 8) (volume (smallGeometry 8) emptyStart) :=
    ⟨.root, 3, enters_of_zero hm.sane (data_emptyStart 8) hsegs, by decide +kernel⟩
  have heval : (makeNested.run (smallMount 8) 0 emptyStart).any (fun r =>
      decide (Nested (volume (smallGeometry 8) r.2))) = true := by decide +kernel
  obtain ⟨⟨out, fat⟩, hrun, hp⟩ := any_eq_true _ _ |>.mp h
  rw [hrun, any_some] at heval
  have hstep : Fat.Step (smallMount 8) emptyStart makeNested fat := ⟨0, out, hrun⟩
  exact ⟨fat, (hstep.kept hm hv hfits).1.consistent, of_decide_eq_true heval, hp⟩

theorem Nested.isDirectory {v : Volume} {d : ℕ} (h : Nested v)
    (hd : IsDirectory (smallGeometry 8) v d) : d ∈ [2, 3, 4, 5] := by
  induction hd with
  | root => decide
  | @child d c i _ hlist _ ih =>
    obtain ⟨⟨l, hl, hc⟩, hi, hlive⟩ := hlist
    rw [hl.unique (.last (h.last d ih)), mem_singleton] at hc
    subst hc
    exact (h.slots c ih i hi hlive).1

theorem Nested.isDir_of_listed {v : Volume} {d c i : ℕ} (h : Nested v)
    (hd : IsDirectory (smallGeometry 8) v d) (hlist : Listed (smallGeometry 8) v d c i) :
    (slot v c i).IsDir := by
  obtain ⟨⟨l, hl, hc⟩, hi, hlive⟩ := hlist
  rw [hl.unique (.last (h.last d (h.isDirectory hd))), mem_singleton] at hc
  subst hc
  exact (h.slots c (h.isDirectory hd) i hi hlive).2

theorem Nested.filesApart {v : Volume} (h : Nested v) : FilesApart (smallGeometry 8) v :=
  fun _ _ _ hd hlist hfile _ => hfile (h.isDir_of_listed hd hlist)

/-- In every sequence of FIND requests that lead to directories, `dir_map` has first clusters of
directories and one entry for a task. Every request is answered, and one that fails changes no entry
while the heap does not fail. -/
theorem working_directories_exist (hm : Ready m) {fat : Fat.State} {behind : ℕ → Option FdEntry}
    {works : List Work} (hv : WellFormed m.toGeometry (volume m.toGeometry fat))
    (hfiles : FilesApart m.toGeometry (volume m.toGeometry fat))
    (hrun : Run (FindStep m) (State.init fat behind) works s) :
    (∀ i entry, s.dirMap i = some entry →
      IsHome m.toGeometry (volume m.toGeometry s.fat) entry.currentCluster ∧
        IsHome m.toGeometry (volume m.toGeometry s.fat) entry.prevCluster) ∧
    (∀ i j entry entry', s.dirMap i = some entry → s.dirMap j = some entry' →
      entry.ownerPid = entry'.ownerPid → i = j) ∧
    ∀ work path, work.Finds path → (∃ r t, Serves m s work r t) ∧
      ∀ r t, Serves m s work r t → r.ok = false → ¬HeapFails m → t.dirMap = s.dirMap := by
  have hkeep : ∀ s work t,
      (volume m s.fat = volume m fat ∧ Homes m s) → FindStep m s work t →
      volume m t.fat = volume m fat ∧ Homes m t := by
    rintro s work t ⟨hvolume, hhomes⟩ ⟨⟨path, hwork, hleads⟩, r, hserves⟩
    have hmoved := (hserves.moved hm (hvolume ▸ hv) (hhomes.own _) hwork
      (hhomes.isDirectory_startingCluster _)).2
    exact ⟨hmoved.volume.trans hvolume, hmoved.homes hhomes hleads⟩
  obtain ⟨hvolume, hhomes⟩ := Run.invariant hkeep hrun ⟨rfl, homes_init m fat behind⟩
  rw [← hvolume] at hv hfiles
  refine ⟨fun i entry hentry => ⟨isHome_of_isDirectory hv hfiles (hhomes.current hentry),
    isHome_of_isDirectory hv hfiles (hhomes.previous hentry)⟩,
    fun i j entry entry' => (hhomes.unique · ·), fun work path hwork => ?_⟩
  have hstart := hhomes.isDirectory_startingCluster work.req.callerPid
  refine ⟨?_, fun r t hserves hfailed hheap => ?_⟩
  · obtain ⟨ok, t, hserves, -⟩ := exists_serves hm hv (hhomes.own _) hwork hstart
    exact ⟨_, t, hserves⟩
  · have hmoved := (hserves.moved hm hv (hhomes.own _) hwork hstart).2
    rw [hfailed] at hmoved
    exact hmoved.dirMap_of_failed hheap

/-- A task goes to the directory `A` and is there. -/
theorem task_is_in_directory : ∃ fat s entry, Run (FindStep (smallMount 8))
    (State.init fat fun _ => none) [findWork 5 [65]] s ∧ s.dirMap 0 = some entry ∧
      entry.currentCluster = 3 ∧
      IsHome (smallGeometry 8) (volume (smallGeometry 8) s.fat) entry.currentCluster := by
  let work := findWork 5 [65]
  let moves (fat : Fat.State) : Bool :=
    (fsHandleRequest (smallMount 8) 3 work.req work.given (State.init fat fun _ => none)).any
      fun r => (r.2.dirMap 0).any fun entry => decide (entry.currentCluster = 3)
  have hevaluated : (makeNested.run (smallMount 8) 0 emptyStart).any (fun r => moves r.2) = true := by
    decide +kernel
  obtain ⟨fat, hv, hnested, hmoves⟩ := exists_nested hevaluated
  obtain ⟨⟨r, s⟩, hserved, hmap⟩ := any_eq_true _ _ |>.mp hmoves
  obtain ⟨entry, hentry, hcluster⟩ := any_eq_true _ _ |>.mp hmap
  have hm : Ready (smallMount 8) := ready_smallMount (by decide)
  have hleads : Leads (smallMount 8) (State.init fat fun _ => none) 5 [65] := by
    refine ⟨fun _ r hr => ?_, fun hback => absurd hback (by decide)⟩
    rw [startingCluster_init] at hr
    obtain ⟨hdir, c, i, hlisted, -, hattr, -⟩ := hr.listed .root
    rw [← hattr]
    exact hnested.isDir_of_listed hdir hlisted
  have hrun : Run (FindStep (smallMount 8)) (State.init fat fun _ => none) [work] s :=
    .cons ⟨⟨[65], ⟨rfl, rfl⟩, hleads⟩, r, 3, hserved⟩ (.nil s)
  refine ⟨fat, s, entry, hrun, hentry, of_decide_eq_true hcluster, ?_⟩
  exact ((working_directories_exist hm hv.wellFormed hnested.filesApart hrun).1 0 entry hentry).1

/-- A task without an entry goes back, and is at the cluster zero. -/
theorem task_is_at_zero : ∃ fat s entry,
    WellFormed (smallGeometry 8) (volume (smallGeometry 8) fat) ∧
      FilesApart (smallGeometry 8) (volume (smallGeometry 8) fat) ∧
      (findWork 5 [dot, dot]).Finds [dot, dot] ∧
      Run (Step (smallMount 8)) (State.init fat fun _ => none) [findWork 5 [dot, dot]] s ∧
      s.dirMap 0 = some entry ∧ entry.currentCluster = 0 := by
  let work := findWork 5 [dot, dot]
  let moves (fat : Fat.State) : Bool :=
    (fsHandleRequest (smallMount 8) 0 work.req work.given (State.init fat fun _ => none)).any
      fun r => (r.2.dirMap 0).any fun entry => decide (entry.currentCluster = 0)
  have hevaluated : (makeNested.run (smallMount 8) 0 emptyStart).any (fun r => moves r.2) = true := by
    decide +kernel
  obtain ⟨fat, hv, hnested, hmoves⟩ := exists_nested hevaluated
  obtain ⟨⟨r, s⟩, hserved, hmap⟩ := any_eq_true _ _ |>.mp hmoves
  obtain ⟨entry, hentry, hcluster⟩ := any_eq_true _ _ |>.mp hmap
  exact ⟨fat, s, entry, hv.wellFormed, hnested.filesApart, ⟨rfl, rfl⟩,
    .cons ⟨r, 0, hserved⟩ (.nil s), hentry, of_decide_eq_true hcluster⟩

end Taavi.Fs
