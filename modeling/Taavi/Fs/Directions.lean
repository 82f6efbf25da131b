import Taavi.Fat.Lookup
import Taavi.Fs.Clerk
import Taavi.Lib.Backing

/-!
# Working directories

What `find` does to `dir_map`: a path forwards starts at the current directory, a path backwards
goes to the previous one. The entry of the task is taken out before a new one is made.
-/

namespace Taavi.Fs

open Lib Fat List

variable {m : Mount} {s t u : State} {pid i j cur prev : ℕ} {entry : DirTraversal}

def dirSlot (s : State) (pid : ℕ) : Option ℕ :=
  firstSlot maxTasks fun i => (s.dirMap i).any fun entry => entry.ownerPid = pid

/-- A task has one entry at most, and its block is allocated. -/
structure Own (s : State) (pid : ℕ) : Prop where
  unique : ∀ ⦃i j entry entry'⦄, i < maxTasks → j < maxTasks → s.dirMap i = some entry →
    s.dirMap j = some entry' → entry.ownerPid = pid → entry'.ownerPid = pid → i = j
  live : ∀ ⦃i entry⦄, i < maxTasks → s.dirMap i = some entry → entry.ownerPid = pid →
    entry.block ∈ s.fat.live

theorem Own.dirGetDirection_eq (hown : Own s pid) (hi : i < maxTasks)
    (hentry : s.dirMap i = some entry) (howner : entry.ownerPid = pid) :
    dirGetDirection s pid = some entry := by
  have hslot : dirSlot s pid = some i := by
    refine firstSlot_eq_some.mpr ⟨hi, by simp [hentry, howner], fun j hj => ?_⟩
    by_contra hnot
    obtain ⟨other, hother, howner'⟩ : ∃ other, s.dirMap j = some other ∧ other.ownerPid = pid := by
      simpa [Option.any_eq_true] using hnot
    have hji := hown.unique (hj.trans hi) hi hother hentry howner' howner
    omega
  show (dirSlot s pid).bind s.dirMap = some entry
  rw [hslot]
  exact hentry

theorem entry_of_dirGetDirection (h : dirGetDirection s pid = some entry) :
    ∃ i < maxTasks, s.dirMap i = some entry ∧ entry.ownerPid = pid := by
  obtain ⟨i, hslot, hentry⟩ := Option.bind_eq_some_iff.mp h
  obtain ⟨hi, howner, -⟩ := firstSlot_eq_some.mp hslot
  refine ⟨i, hi, hentry, ?_⟩
  simpa [hentry] using howner

section

variable {l : List ℕ} {slot : Option ℕ}

/-- The clerk when an entry of `dir_map` was freed. -/
def State.release (s : State) (i : ℕ) (entry : DirTraversal) : State :=
  { s.setDir i none with fat := { s.fat with live := s.fat.live.erase entry.block } }

/-- The entry of a task is taken out of the map, if there is one. -/
inductive Forgets (s : State) (pid : ℕ) : Option ℕ → State → Prop
  | absent : (∀ i < maxTasks, ∀ entry, s.dirMap i = some entry → entry.ownerPid ≠ pid) →
      Forgets s pid none s
  | freed {i : ℕ} {entry : DirTraversal} : i < maxTasks → s.dirMap i = some entry →
      entry.ownerPid = pid →
      (∀ j < maxTasks, ∀ other, s.dirMap j = some other → other.ownerPid = pid → j = i) →
      Forgets s pid (some i) (s.release i entry)

theorem clearDirections_of_none
    (hnone : ∀ i ∈ l, ∀ entry, s.dirMap i = some entry → entry.ownerPid ≠ pid) (slot : Option ℕ) :
    clearDirections pid l slot s = some (slot, s) := by
  induction l with
  | nil => rfl
  | cons i l ih =>
    have hrest := ih fun j hj => hnone j (mem_cons_of_mem _ hj)
    cases hentry : s.dirMap i with
    | none =>
      simp only [clearDirections, get_bind, hentry]
      exact hrest
    | some entry =>
      simp only [clearDirections, get_bind, hentry]
      rw [if_neg (hnone i mem_cons_self entry hentry)]
      exact hrest

theorem clearDirections_of_entry (hi : i ∈ l) (hentry : s.dirMap i = some entry)
    (howner : entry.ownerPid = pid) (hlive : entry.block ∈ s.fat.live)
    (hother : ∀ j ∈ l, ∀ other, s.dirMap j = some other → other.ownerPid = pid → j = i)
    (slot : Option ℕ) :
    clearDirections pid l slot s = some (some i, s.release i entry) := by
  induction l with
  | nil => cases hi
  | cons j l ih =>
    have hother' : ∀ j ∈ l, ∀ other, s.dirMap j = some other → other.ownerPid = pid → j = i :=
      fun j hj => hother j (mem_cons_of_mem _ hj)
    by_cases hji : j = i
    · subst hji
      -- the rest of the loop finds nothing more
      have hrest : clearDirections pid l (some j) (s.release j entry) =
          some (some j, s.release j entry) := by
        refine clearDirections_of_none ?_ _
        intro k hk other hk' howner'
        by_cases hkj : k = j
        · subst hkj
          simp [State.release, State.setDir] at hk'
        · have hold : s.dirMap k = some other := by
            rw [← hk']
            exact (assign_of_ne _ _ hkj).symm
          exact hkj (hother' k hk other hold howner')
      have hfree : kfree entry.block s.fat =
          some ((), { s.fat with live := s.fat.live.erase entry.block }) := if_pos hlive
      simp only [clearDirections, get_bind, hentry]
      rw [if_pos howner]
      show ((kfree entry.block s.fat).map _).bind _ = _
      rw [hfree]
      exact hrest
    · have hi' : i ∈ l := (mem_cons.mp hi).resolve_left fun h => hji h.symm
      have hrest := ih hi' hother'
      cases hj : s.dirMap j with
      | none =>
        simp only [clearDirections, get_bind, hj]
        exact hrest
      | some other =>
        simp only [clearDirections, get_bind, hj]
        rw [if_neg fun h => hji (hother j mem_cons_self other hj h)]
        exact hrest

theorem clearDirections_spec (hown : Own s pid) :
    Ends (clearDirections pid (List.range maxTasks) none) s fun slot u => Forgets s pid slot u := by
  by_cases hnone : ∀ i < maxTasks, ∀ entry, s.dirMap i = some entry → entry.ownerPid ≠ pid
  · exact ⟨none, s, clearDirections_of_none (fun i hi => hnone i (mem_range.mp hi)) none,
      .absent hnone⟩
  · push Not at hnone
    obtain ⟨i, hi, entry, hentry, howner⟩ := hnone
    have hother : ∀ j < maxTasks, ∀ other, s.dirMap j = some other → other.ownerPid = pid → j = i :=
      fun j hj other hj' howner' => hown.unique hj hi hj' hentry howner' howner
    exact ⟨some i, s.release i entry,
      clearDirections_of_entry (mem_range.mpr hi) hentry howner (hown.live hi hentry howner)
        (fun j hj => hother j (mem_range.mp hj)) none,
      .freed hi hentry howner hother⟩

theorem Forgets.of_dirMap (h : Forgets s pid slot u)
    (hentry : u.dirMap j = some entry) :
    s.dirMap j = some entry ∧ (j < maxTasks → entry.ownerPid ≠ pid) := by
  cases h with
  | absent hnone => exact ⟨hentry, fun hj => hnone j hj entry hentry⟩
  | @freed i old hi hold howner hother =>
    by_cases hji : j = i
    · subst hji
      simp [State.release, State.setDir] at hentry
    · have hsame : s.dirMap j = some entry := by
        rw [← hentry]
        exact (assign_of_ne _ _ hji).symm
      exact ⟨hsame, fun hj howner' => hji (hother j hj entry hsame howner')⟩

theorem Forgets.volume (h : Forgets s pid slot u) (g : Geometry) :
    volume g u.fat = volume g s.fat := by
  cases h <;> rfl

end

/-- The clerk when a block was allocated. -/
def State.malloc (s : State) : State :=
  { s with
    fat := { s.fat with mallocs := s.fat.mallocs + 1, live := s.fat.mallocs :: s.fat.live } }

def newDirection (m : Mount) (block pid cur prev : ℕ) : DirTraversal :=
  ⟨block, pid, cur, if prev ≤ 2 then m.rootCluster else prev⟩

/-- What `dir_traversal_mapper` does. -/
inductive Mapped (m : Mount) (s : State) (pid cur prev : ℕ) : Bool → State → Prop
  | full : (∀ i < maxTasks, ∀ entry, s.dirMap i = some entry → entry.ownerPid ≠ pid) →
      Mapped m s pid cur prev false s
  | failed {slot : Option ℕ} {u : State} : HeapFails m → Forgets s pid slot u →
      Mapped m s pid cur prev false
        { u with fat := { u.fat with mallocs := u.fat.mallocs + 1 } }
  | set {slot : Option ℕ} {u : State} {i : ℕ} : Forgets s pid slot u → i < maxTasks →
      u.dirMap i = none →
      Mapped m s pid cur prev true
        (u.malloc.setDir i (some (newDirection m u.fat.mallocs pid cur prev)))

theorem dirTraversalMapper_spec (hown : Own s pid) (cur prev : ℕ) :
    Ends (dirTraversalMapper m pid cur prev) s fun ok t => Mapped m s pid cur prev ok t := by
  refine (clearDirections_spec hown).bind ?_
  intro slot u hu
  refine (ends_get u).bind ?_
  rintro _ _ ⟨rfl, rfl⟩
  rename_i u
  -- the slot is that of the old entry, or the first free one
  have hslot : (slot.or (firstSlot maxTasks fun i => (u.dirMap i).isNone) = none ∧
      Mapped m s pid cur prev false u) ∨
      ∃ i, slot.or (firstSlot maxTasks fun i => (u.dirMap i).isNone) = some i ∧ i < maxTasks ∧
        u.dirMap i = none := by
    cases hu with
    | absent hnone =>
      rw [Option.none_or]
      cases hfst : firstSlot maxTasks fun i => (s.dirMap i).isNone with
      | none => exact .inl ⟨rfl, .full hnone⟩
      | some i =>
        obtain ⟨hi, hempty, -⟩ := firstSlot_eq_some.mp hfst
        exact .inr ⟨i, rfl, hi, Option.isNone_iff_eq_none.mp hempty⟩
    | freed hi hentry howner hother =>
      exact .inr ⟨_, rfl, hi, assign_same ..⟩
  rcases hslot with ⟨hnone, hfull⟩ | ⟨i, hsome, hi, hempty⟩
  · dsimp only
    rw [hnone]
    exact ends_pure hfull
  · dsimp only
    rw [hsome]
    by_cases hfail : m.heapFails u.fat.mallocs = true
    · have hmalloc : kmalloc m u.fat =
          some (none, { u.fat with mallocs := u.fat.mallocs + 1 }) := if_pos hfail
      refine ⟨false, { u with fat := { u.fat with mallocs := u.fat.mallocs + 1 } }, ?_,
        .failed ⟨_, hfail⟩ hu⟩
      show ((kmalloc m u.fat).map _).bind _ = _
      rw [hmalloc]
      rfl
    · have hmalloc : kmalloc m u.fat = some (some u.fat.mallocs, u.malloc.fat) := if_neg hfail
      refine ⟨true, u.malloc.setDir i (some (newDirection m u.fat.mallocs pid cur prev)), ?_,
        .set hu hi hempty⟩
      show ((kmalloc m u.fat).map _).bind _ = _
      rw [hmalloc]
      rfl

theorem Mapped.own {ok : Bool} (h : Mapped m s pid cur prev ok t) (hown : Own s pid) :
    Own t pid := by
  cases h with
  | full _ => exact hown
  | @failed slot u _ hu =>
    refine ⟨?_, ?_⟩
    · intro i j entry entry' hi _ hentry _ howner
      exact absurd howner ((hu.of_dirMap hentry).2 hi)
    · intro i entry hi hentry howner
      exact absurd howner ((hu.of_dirMap hentry).2 hi)
  | @set slot u i hu hi hempty =>
    have hnew : ∀ j entry, j < maxTasks →
        (u.malloc.setDir i (some (newDirection m u.fat.mallocs pid cur prev))).dirMap j =
          some entry → entry.ownerPid = pid →
        j = i ∧ entry = newDirection m u.fat.mallocs pid cur prev := by
      intro j entry hj hentry howner
      by_cases hji : j = i
      · subst hji
        exact ⟨rfl, (Option.some.inj ((assign_same ..).symm.trans hentry)).symm⟩
      · have hold : u.dirMap j = some entry := (assign_of_ne _ _ hji).symm.trans hentry
        exact absurd howner ((hu.of_dirMap hold).2 hj)
    refine ⟨?_, ?_⟩
    · intro j j' entry entry' hj hj' hentry hentry' howner howner'
      rw [(hnew j entry hj hentry howner).1, (hnew j' entry' hj' hentry' howner').1]
    · intro j entry hj hentry howner
      rw [(hnew j entry hj hentry howner).2]
      exact mem_cons_self

theorem Mapped.dirGetDirection_eq (h : Mapped m s pid cur prev true t) (hown : Own s pid) :
    ∃ block, dirGetDirection t pid = some (newDirection m block pid cur prev) := by
  have hown' := h.own hown
  cases h with
  | @set slot u i hu hi hempty =>
    exact ⟨u.fat.mallocs, hown'.dirGetDirection_eq hi (assign_same ..) rfl⟩

theorem Mapped.volume {ok : Bool} (h : Mapped m s pid cur prev ok t) (g : Geometry) :
    volume g t.fat = volume g s.fat := by
  cases h with
  | full _ => rfl
  | failed _ hu => exact hu.volume g
  | set hu _ _ => exact hu.volume g

variable {req : Request} {path : List UInt8} {fuel : ℕ}

/-- The directories that a path of a task leads to: the new current one and the new previous one. -/
inductive Target (m : Mount) (s : State) (pid : ℕ) (path : List UInt8) : Option (ℕ × ℕ) → Prop
  | down {r : Option Resolved} : isBackwards path = false →
      Resolves m (volume m s.fat) (startingCluster m s pid) (skipSlash path)
        r →
      Target m s pid path (r.map fun r => (r.fileCluster, r.dirCluster))
  | up {entry : DirTraversal} {k : List ℕ} : isBackwards path = true →
      dirGetDirection s pid = some entry →
      Chain (volume m s.fat).cells m.rootCluster k →
      Target m s pid path
        ((parentIn m (volume m s.fat) entry.prevCluster k).map fun parent =>
          (entry.prevCluster, parent.getD 0))
  | lost : isBackwards path = true → dirGetDirection s pid = none →
      Target m s pid path (some (0, 0))

/-- The tables and the volume are as before, and no block was freed. -/
structure Searched (g : Geometry) (s t : State) : Prop where
  fds : t.fdEntryTable = s.fdEntryTable
  dirs : t.dirMap = s.dirMap
  volume : volume g t.fat = volume g s.fat
  live : s.fat.live <:+ t.fat.live

/-- What `find` does. -/
inductive Moved (m : Mount) (s : State) (pid : ℕ) (path : List UInt8) : Bool → State → Prop
  | failed {t : State} : HeapFails m ∨ Target m s pid path none → Searched m s t →
      Moved m s pid path false t
  | mapped {t u : State} {ok : Bool} {cur prev : ℕ} : Target m s pid path (some (cur, prev)) →
      Searched m s u → Mapped m u pid cur prev ok t → Moved m s pid path ok t

theorem Searched.own {g : Geometry} (h : Searched g s t) (hown : Own s pid) : Own t pid := by
  refine ⟨?_, ?_⟩
  · intro i j entry entry' hi hj hentry hentry'
    rw [h.dirs] at hentry hentry'
    exact hown.unique hi hj hentry hentry'
  · intro i entry hi hentry howner
    rw [h.dirs] at hentry
    exact h.live.subset (hown.live hi hentry howner)

theorem find_spec (hm : Ready m) (hv : WellFormed m (volume m s.fat))
    (hown : Own s req.callerPid) (hpath : pathOf req = some path)
    (hstart : IsDirectory m (volume m s.fat) (startingCluster m s req.callerPid))
    (hfuel : m.maximumClusterSize + 1 < fuel) :
    Ends (find m fuel req) s fun ok t => Moved m s req.callerPid path ok t := by
  refine (ends_deref hpath s).bind ?_
  rintro _ _ ⟨rfl, rfl⟩
  refine (ends_get s).bind ?_
  rintro _ _ ⟨rfl, rfl⟩
  rename_i s
  cases hback : isBackwards path with
  | true =>
    rw [if_pos rfl]
    cases hentry : dirGetDirection s req.callerPid with
    | none =>
      have hsearch : Searched m s s := ⟨rfl, rfl, rfl, suffix_refl _⟩
      refine (dirTraversalMapper_spec hown 0 0).imp fun ok t ht => ?_
      exact .mapped (.lost hback hentry) hsearch ht
    | some entry =>
      obtain ⟨k, hk⟩ := hv.exists_chain .root
      have hlen : k.length + 1 < fuel := by
        have hle := length_le_of_chain hk
        omega
      have htarget := Target.up hback hentry hk
      refine (ends_onVolume (findParentCluster_spec hm rfl hk hlen entry.prevCluster)).bind ?_
      rintro parent _ ⟨fat, rfl, ⟨live, hfat, hlive⟩, hpar⟩
      have hsearch : Searched m s { s with fat := fat } :=
        ⟨rfl, rfl, hfat.volume, hfat.live ▸ hlive⟩
      rcases hpar with ⟨rfl, hfail⟩ | hpar
      · exact ends_pure (.failed (.inl hfail) hsearch)
      rw [← hpar] at htarget
      cases parent with
      | none => exact ends_pure (.failed (.inr htarget) hsearch)
      | some parent =>
        refine (dirTraversalMapper_spec (hsearch.own hown) _ _).imp fun ok t ht => ?_
        exact .mapped htarget hsearch ht
  | false =>
    rw [if_neg (by decide)]
    refine (ends_onVolume (findCluster_spec hm rfl hv hstart hfuel path)).bind ?_
    rintro r _ ⟨fat, rfl, hfat, hr⟩
    have hsearch : Searched m s { s with fat := fat } :=
      ⟨rfl, rfl, hfat.volume, hfat.live ▸ suffix_refl _⟩
    rcases hr with ⟨rfl, hfail⟩ | hr
    · exact ends_pure (.failed (.inl hfail) hsearch)
    have htarget := Target.down hback hr
    cases r with
    | none => exact ends_pure (.failed (.inr htarget) hsearch)
    | some r =>
      refine (dirTraversalMapper_spec (hsearch.own hown) _ _).imp fun ok t ht => ?_
      exact .mapped htarget hsearch ht

end Taavi.Fs
