import Mathlib.Data.List.TakeWhile
import Taavi.Fs.WorkingDirs

/-!
# Down and up again

A task that goes down remembers where it came from. When it goes back, the directory above is
searched for in the root only, so it comes back to the root and the directories in it, and no
deeper.
-/

namespace Taavi.Fs

open Lib Fat List Option

variable {m : Mount} {s t u : State} {v : Volume} {pid d cur prev : ℕ} {work : Work}
  {path : List UInt8}

/-- A path with one segment that goes forwards. -/
structure Component (path : List UInt8) : Prop where
  nonempty : path ≠ []
  short : path.length ≤ 12
  noSlash : slash ∉ path
  forwards : isBackwards path = false

/-- A FIND request of a task succeeds. -/
def Goes (m : Mount) (pid : ℕ) (s : State) (work : Work) (t : State) : Prop :=
  work.req.callerPid = pid ∧ ∃ r, Serves m s work r t ∧ r.ok = true

/-- A task goes from its directory to one that is in it. -/
structure Descends (m : Mount) (pid : ℕ) (s : State) (work : Work) (t : State) : Prop where
  path : ∃ path, work.Finds path ∧ Component path
  goes : Goes m pid s work t
  directory : IsDirectory m.toGeometry (volume m.toGeometry t.fat) (startingCluster m t pid)

/-- The request is to go to the parent directory. -/
def Work.Climbs (work : Work) (pid : ℕ) : Prop :=
  work.req.callerPid = pid ∧ ∃ path, work.Finds path ∧ isBackwards path = true

theorem Component.skipSlash_eq (h : Component path) : skipSlash path = path := by
  cases path with
  | nil => rfl
  | cons c path =>
    have hc : c ≠ slash := by
      rintro rfl
      exact h.noSlash mem_cons_self
    simp [skipSlash, hc]

theorem Component.tailPath_eq (h : Component path) : tailPath path = [] := by
  have hseg : firstSegment path = path := by
    rw [firstSegment, take_of_length_le h.short, takeWhile_eq_self_iff]
    intro c hc
    have hne : c ≠ slash := by
      rintro rfl
      exact h.noSlash hc
    simpa using hne
  rw [tailPath, hseg, drop_length]

theorem Component.resolves {g : Geometry} {r : Resolved} (h : Component path)
    (hr : Resolves g v d path (some r)) :
    r.dirCluster = d ∧ ∃ c i, Listed g v d c i ∧ (slot v c i).cluster = r.fileCluster := by
  generalize hout : some r = out at hr
  cases hr with
  | stop | missing | blocked => cases hout
  | @last d c i k path _ hk hslot =>
    cases hout
    exact ⟨rfl, c, i, listed_of_entrySlot hk hslot, rfl⟩
  | enter _ _ _ htail => exact absurd h.tailPath_eq htail

/-- The task has an entry with these directories. -/
structure Here (m : Mount) (v : Volume) (s : State) (pid cur prev : ℕ) : Prop where
  volume : volume m s.fat = v
  own : Own s pid
  entry : ∃ block, dirGetDirection s pid = some ⟨block, pid, cur, prev⟩

theorem Here.startingCluster_eq (h : Here m v s pid cur prev) : startingCluster m s pid = cur := by
  obtain ⟨block, hentry⟩ := h.entry
  rw [startingCluster, hentry]

def remembered (m : Mount) (d : ℕ) : ℕ := if d ≤ 2 then m.rootCluster else d

theorem here_of_mapped (hown : Own u pid) (hvol : volume m u.fat = v)
    (h : Mapped m u pid cur prev true t) : Here m v t pid cur (remembered m prev) :=
  ⟨(h.volume _).trans hvol, h.own hown, h.dirGetDirection_eq hown⟩

theorem Descends.here (hm : Ready m) (hvol : volume m s.fat = v)
    (hv : WellFormed m v) (hown : Own s pid) (hstart : IsDirectory m v (startingCluster m s pid))
    (h : Descends m pid s work t) :
    ∃ cur, Here m v t pid cur (remembered m (startingCluster m s pid)) ∧
      IsDirectory m v cur ∧
      ∃ c i, Listed m v (startingCluster m s pid) c i ∧ (slot v c i).cluster = cur := by
  subst hvol
  obtain ⟨⟨path, hwork, hpath⟩, ⟨rfl, r, hserves, hok⟩, hdir⟩ := h
  have hmoved := (hserves.moved hm hv hown hwork hstart).2
  rw [hok] at hmoved
  cases hmoved with
  | @mapped _ u _ cur prev htarget hsearch hmap =>
    have hhere := here_of_mapped (hsearch.own hown) hsearch.volume hmap
    generalize hout : some (cur, prev) = out at htarget
    cases htarget with
    | @down r _ hr =>
      cases r with
      | none => cases hout
      | some r =>
        cases hout
        rw [hpath.skipSlash_eq] at hr
        obtain ⟨hd, hlist⟩ := hpath.resolves hr
        rw [hd] at hhere
        rw [hhere.startingCluster_eq, hhere.volume] at hdir
        exact ⟨_, hhere, hdir, hlist⟩
    | up hback | lost hback => exact absurd hback (by rw [hpath.forwards]; decide)

/-- The root directory, or one named in its first cluster only and not remembered as its number. -/
def Anchored (m : Mount) (v : Volume) (d : ℕ) : Prop :=
  d = m.rootCluster ∨ (d ≠ 2 ∧ ∀ k c i, Chain v.cells m.rootCluster k → c ∈ k →
    i < calculateMaxDirEntries m.toGeometry → (slot v c i).cluster = d → c = m.rootCluster)

def NearRoot (m : Mount) (v : Volume) (d : ℕ) : Prop :=
  d = m.rootCluster ∨ ∃ c i, Listed m v m.rootCluster c i ∧ (slot v c i).cluster = d

theorem remembered_parentIn {k : List ℕ} (hk : Chain v.cells m.rootCluster k)
    (hanchored : Anchored m v d) (hnear : NearRoot m v d) :
    ∃ parent, parentIn m v d k = some parent ∧ remembered m (parent.getD 0) = m.rootCluster := by
  have hzero : remembered m 0 = m.rootCluster := if_pos (Nat.zero_le 2)
  have hroot : remembered m m.rootCluster = m.rootCluster := by
    unfold remembered
    split_ifs <;> rfl
  by_cases hd : d = m.rootCluster
  · obtain ⟨k, rfl⟩ := hk.exists_cons
    exact ⟨none, by rw [parentIn, if_pos hd.symm], hzero⟩
  · obtain ⟨-, hfst⟩ := hanchored.resolve_left hd
    obtain ⟨c, i, hlist, hclus⟩ := hnear.resolve_left hd
    obtain ⟨⟨l, hl, hc⟩, hi, -⟩ := hlist
    obtain rfl := hl.unique hk
    obtain ⟨parent, hpar⟩ := exists_parentIn hc hi hclus
    refine ⟨parent, hpar, ?_⟩
    cases parent with
    | none => exact hzero
    | some e =>
      obtain ⟨he, j, hj, hslot⟩ := parentIn_eq_some hpar
      rw [getD_some, hfst l e j hk he hj hslot]
      exact hroot

theorem Target.of_backwards {out : Option (ℕ × ℕ)} {entry : DirTraversal}
    (h : Target m s pid path out) (hback : isBackwards path = true)
    (hentry : dirGetDirection s pid = some entry) :
    ∃ k, Chain (Fat.volume m s.fat).cells m.rootCluster k ∧
      out = (parentIn m (Fat.volume m s.fat) entry.prevCluster k).map
        fun parent => (entry.prevCluster, parent.getD 0) := by
  cases h with
  | down hforwards => exact absurd hback (by rw [hforwards]; decide)
  | @up other k _ hother hk =>
    cases hother.symm.trans hentry
    exact ⟨k, hk, rfl⟩
  | lost _ hnone =>
    rw [hnone] at hentry
    cases hentry

theorem Here.climb (hm : Ready m) (hheap : ¬HeapFails m) (hv : WellFormed m v)
    (h : Here m v s pid cur d) (hcur : IsDirectory m v cur)
    (hanchored : Anchored m v d) (hnear : NearRoot m v d) (hwork : work.Climbs pid) :
    ∃ t, Goes m pid s work t ∧ Here m v t pid d m.rootCluster := by
  obtain ⟨rfl, hown, block, hentry⟩ := h
  obtain ⟨rfl, path, hfinds, hback⟩ := hwork
  have hstart : startingCluster m s work.req.callerPid = cur := by rw [startingCluster, hentry]
  rw [← hstart] at hcur
  obtain ⟨ok, t, hserves, hmoved⟩ := exists_serves hm hv hown hfinds hcur
  cases hmoved with
  | failed hfailed hsearch =>
    obtain ⟨k, hk, hout⟩ := (hfailed.resolve_left hheap).of_backwards hback hentry
    obtain ⟨parent, hpar, -⟩ := remembered_parentIn hk hanchored hnear
    rw [hpar] at hout
    cases hout
  | @mapped _ u _ cur' prev htarget hsearch hmap =>
    obtain ⟨k, hk, hout⟩ := htarget.of_backwards hback hentry
    obtain ⟨parent, hpar, hroot⟩ := remembered_parentIn hk hanchored hnear
    rw [hpar] at hout
    cases hout
    have hok : ok = true := by
      cases hmap with
      | full hnone =>
        obtain ⟨i, hi, hslot, howner⟩ := entry_of_dirGetDirection hentry
        rw [← hsearch.dirs] at hslot
        exact absurd howner (hnone i hi _ hslot)
      | failed hfail => exact absurd hfail hheap
      | set _ _ _ => rfl
    subst hok
    have hhere := here_of_mapped (hsearch.own hown) hsearch.volume hmap
    rw [hroot] at hhere
    exact ⟨t, ⟨rfl, _, hserves, rfl⟩, hhere⟩

theorem own_of_dirGetDirection (h : dirGetDirection s pid = none) : Own s pid := by
  have hnone : ∀ ⦃i entry⦄, i < maxTasks → s.dirMap i = some entry → entry.ownerPid ≠ pid := by
    intro i entry hi hentry howner
    have hslot : dirSlot s pid ≠ none := by
      intro hslot
      have hnot := firstSlot_eq_none.mp hslot i hi
      simp [hentry, howner] at hnot
    obtain ⟨j, hj⟩ := ne_none_iff_exists'.mp hslot
    obtain ⟨hlt, hany, -⟩ := firstSlot_eq_some.mp hj
    obtain ⟨other, hother, -⟩ := any_eq_true _ _ |>.mp hany
    have hsome : dirGetDirection s pid = some other := by
      show (dirSlot s pid).bind s.dirMap = some other
      rw [hj]
      exact hother
    rw [h] at hsome
    cases hsome
  exact ⟨fun i j entry entry' hi _ hentry _ howner => absurd howner (hnone hi hentry),
    fun i entry hi hentry howner => absurd howner (hnone hi hentry)⟩

theorem here_below (hm : Ready m) (hvol : volume m s.fat = v)
    (hv : WellFormed m v) (hown : Own s pid)
    (hroot : startingCluster m s pid = m.rootCluster) {downs : List Work} {down : Work}
    (hdowns : Run (Descends m pid) s downs t) (hdown : Descends m pid t down u)
    (hdepth : downs.length ≤ 1) (hanchored : Anchored m v (startingCluster m t pid)) :
    ∃ cur, Here m v u pid cur (startingCluster m t pid) ∧ IsDirectory m v cur ∧
      IsDirectory m v (startingCluster m t pid) ∧
      NearRoot m v (startingCluster m t pid) ∧
      (downs = [] → startingCluster m t pid = m.rootCluster) := by
  have hremembered : remembered m m.rootCluster = m.rootCluster := by
    unfold remembered
    split_ifs <;> rfl
  have hstart : IsDirectory m v (startingCluster m s pid) := by
    rw [hroot]
    exact .root
  cases hdowns with
  | nil =>
    obtain ⟨cur, hhere, hdir, -⟩ := hdown.here hm hvol hv hown hstart
    rw [hroot, hremembered] at hhere
    rw [hroot]
    exact ⟨cur, hhere, hdir, .root, .inl rfl, fun _ => rfl⟩
  | @cons _ t' _ first rest hfst hrest =>
    cases hrest with
    | nil =>
      obtain ⟨d, hd, hdir, c, i, hlist, hclus⟩ := hfst.here hm hvol hv hown hstart
      rw [← hd.startingCluster_eq] at hdir
      obtain ⟨cur, hhere, hcur, -⟩ := hdown.here hm hd.volume hv hd.own hdir
      rw [hroot] at hlist
      rw [hd.startingCluster_eq] at hanchored hhere hdir ⊢
      have hkept : remembered m d = d := by
        by_cases hroot' : d = m.rootCluster
        · rw [hroot', hremembered]
        · have hused := (hv.directories d hdir).used
          rw [← hvol] at hused
          have hlow := (inRange_of_used hused).1
          have hne := (hanchored.resolve_left hroot').1
          exact if_neg (by omega)
      rw [hkept] at hhere
      exact ⟨cur, hhere, hcur, hdir, .inr ⟨c, i, hlist, hclus⟩, fun h => absurd h (by simp)⟩
    | cons _ _ => simp at hdepth

/-- The first `n` of `A`, `A/B` and `A/B/C` are the first entries of the one above them. -/
def Linked (v : Volume) (n : ℕ) : Prop :=
  ∀ a < n, v.cells (2 + a) = .last ∧ (slot v (2 + a) 0).Live ∧ (slot v (2 + a) 0).IsDir ∧
    (slot v (2 + a) 0).cluster = 2 + (a + 1)

instance (v : Volume) (n : ℕ) : Decidable (Linked v n) := Nat.decidableBallLT n _

theorem Linked.isDirectory {v : Volume} {n : ℕ} (h : Linked v n) :
    IsDirectory (smallGeometry 8) v (2 + n) := by
  induction n with
  | zero => exact .root
  | succ n ih =>
    obtain ⟨hlast, hlive, hdir, hclus⟩ := h n (Nat.lt_succ_self n)
    rw [← hclus]
    refine .child (ih fun a ha => h a (ha.trans (Nat.lt_succ_self n))) ?_ hdir
    exact ⟨⟨_, .last hlast, mem_singleton.mpr rfl⟩, by decide, hlive⟩

/-- A task goes down from the directory at a depth, by names of one letter. -/
def descend : ℕ → List UInt8 → State → Option State
  | _, [], s => some s
  | depth, c :: names, s =>
    (fsHandleRequest (smallMount 8) 3 (findWork 5 [c]).req (findWork 5 [c]).given s).bind fun r =>
      if r.1.ok = true ∧ startingCluster (smallMount 8) r.2 5 = 2 + (depth + 1) ∧
          Linked (volume (smallGeometry 8) r.2.fat) (depth + 1) then
        descend (depth + 1) names r.2
      else none

theorem component_letter {c : UInt8} (hc : c ∈ ([65, 66, 67] : List UInt8)) :
    Component [c] ∧ c ≠ 0 := by
  simp only [mem_cons, not_mem_nil, or_false] at hc
  rcases hc with rfl | rfl | rfl
  all_goals exact ⟨⟨by decide, by decide, by decide, by decide⟩, by decide⟩

theorem run_of_descend {depth : ℕ} {names : List UInt8} (hnames : names ⊆ [65, 66, 67])
    (h : descend depth names s = some t) :
    Run (Descends (smallMount 8) 5) s (names.map fun c => findWork 5 [c]) t := by
  induction names generalizing depth s with
  | nil =>
    obtain rfl := Option.some.inj h
    exact .nil s
  | cons c names ih =>
    obtain ⟨⟨r, u⟩, hserve, hrest⟩ := bind_eq_some_iff.mp h
    split_ifs at hrest with hchecked
    obtain ⟨hok, hstart, hlinked⟩ := hchecked
    obtain ⟨hcomponent, hzero⟩ := component_letter (hnames mem_cons_self)
    refine .cons ⟨⟨[c], ⟨rfl, ?_⟩, hcomponent⟩, ⟨rfl, r, ⟨3, hserve⟩, hok⟩, ?_⟩
      (ih (fun c hc => hnames (mem_cons_of_mem _ hc)) hrest)
    · simp [pathOf, findWork, hzero]
    · rw [hstart]
      exact hlinked.isDirectory

theorem descends_of_descend {depth : ℕ} {c : UInt8} (hc : c ∈ ([65, 66, 67] : List UInt8))
    (h : descend depth [c] s = some t) : Descends (smallMount 8) 5 s (findWork 5 [c]) t := by
  cases run_of_descend (by simpa using hc) h with
  | cons hstep hrest =>
    cases hrest with
    | nil => exact hstep

theorem climbs_findWork : (findWork 5 [dot, dot]).Climbs 5 := ⟨rfl, [dot, dot], ⟨rfl, rfl⟩, rfl⟩

/-- Going back takes a task to the directory that it came from, and as often as it went down to the
root directory, if the entries of the root directory for that directory are in its first cluster. -/
theorem climbing_returns (hm : Ready m) (hheap : ¬HeapFails m)
    (hv : WellFormed m.toGeometry (volume m.toGeometry s.fat)) (hown : Own s pid)
    (hroot : startingCluster m s pid = m.rootCluster) {downs : List Work} {down : Work}
    (hdowns : Run (Descends m pid) s downs t) (hdown : Descends m pid t down u)
    (hdepth : downs.length ≤ 1)
    (hanchored : Anchored m (volume m.toGeometry s.fat) (startingCluster m t pid)) :
    (∀ up : Work, up.Climbs pid →
      ∃ w, Goes m pid u up w ∧ startingCluster m w pid = startingCluster m t pid) ∧
    ∀ ups : List Work, (∀ up ∈ ups, up.Climbs pid) → ups.length = downs.length + 1 →
      ∃ w, Run (Goes m pid) u ups w ∧ startingCluster m w pid = m.rootCluster := by
  obtain ⟨cur, hhere, hcur, hdir, hnear, hempty⟩ :=
    here_below hm rfl hv hown hroot hdowns hdown hdepth hanchored
  have hup : ∀ up : Work, up.Climbs pid → ∃ w, Goes m pid u up w ∧
      Here m (volume m s.fat) w pid (startingCluster m t pid) m.rootCluster :=
    fun up hup => hhere.climb hm hheap hv hcur hanchored hnear hup
  refine ⟨fun up hclimbs => ?_, fun ups hclimbs hlength => ?_⟩
  · obtain ⟨w, hgoes, hw⟩ := hup up hclimbs
    exact ⟨w, hgoes, hw.startingCluster_eq⟩
  · obtain ⟨up, rest, rfl⟩ := exists_cons_of_length_eq_add_one hlength
    obtain ⟨w, hgoes, hw⟩ := hup up (hclimbs up mem_cons_self)
    rw [length_cons, Nat.add_right_cancel_iff] at hlength
    cases rest with
    | nil =>
      have hdowns' : downs = [] := length_eq_zero_iff.mp hlength.symm
      exact ⟨w, .cons hgoes (.nil w), hw.startingCluster_eq.trans (hempty hdowns')⟩
    | cons up' rest =>
      obtain rfl : rest = [] := by
        rw [length_cons] at hlength
        exact length_eq_zero_iff.mp (by omega)
      -- the second step goes from `D` to the root directory
      have hclimbs' : up'.Climbs pid := hclimbs up' (by simp)
      obtain ⟨x, hgoes', hx⟩ := hw.climb hm hheap hv hdir (.inl rfl) (.inl rfl) hclimbs'
      exact ⟨x, .cons hgoes (.cons hgoes' (.nil x)), hx.startingCluster_eq⟩

/-- A task goes to `A/B` and back to the root directory. -/
theorem climbs_from_second_directory : ∃ fat t u w,
    Run (Descends (smallMount 8) 5) (State.init fat fun _ => none) [findWork 5 [65]] t ∧
      Descends (smallMount 8) 5 t (findWork 5 [66]) u ∧
      Run (Goes (smallMount 8) 5) u [findWork 5 [dot, dot], findWork 5 [dot, dot]] w ∧
      startingCluster (smallMount 8) w 5 = 2 := by
  have hm : Ready (smallMount 8) := ready_smallMount (by decide)
  let goes (fat : Fat.State) : Bool := ((descend 0 [65] (State.init fat fun _ => none)).bind
    fun t => (descend 1 [66] t).map fun u => (t, u)).any fun r =>
      decide (startingCluster (smallMount 8) r.1 5 = 3)
  have hevaluated :
      (makeNested.run (smallMount 8) 0 emptyStart).any (fun r => goes r.2) = true := by
    decide +kernel
  obtain ⟨fat, hv, hnested, hgoes⟩ := exists_nested hevaluated
  obtain ⟨⟨t, u⟩, hrun, hstart⟩ := any_eq_true _ _ |>.mp hgoes
  obtain ⟨t', hfirst, hrest⟩ := bind_eq_some_iff.mp hrun
  obtain ⟨u', hsecond, hpair⟩ := map_eq_some_iff.mp hrest
  obtain ⟨rfl, rfl⟩ := Prod.mk.inj hpair
  have hdowns : Run (Descends (smallMount 8) 5) (State.init fat fun _ => none) [findWork 5 [65]]
      t' := run_of_descend (by decide) hfirst
  have hdown : Descends (smallMount 8) 5 t' (findWork 5 [66]) u' :=
    descends_of_descend (by decide) hsecond
  have hanchored : Anchored (smallMount 8) (volume (smallGeometry 8) fat)
      (startingCluster (smallMount 8) t' 5) := by
    rw [of_decide_eq_true hstart]
    refine .inr ⟨by decide, fun k c i hk hc _ _ => ?_⟩
    rw [hk.unique (.last (hnested.last 2 (by decide))), mem_singleton] at hc
    exact hc
  have hheap := heap_smallMount 8
  have hown : Own (State.init fat fun _ => none) 5 :=
    own_of_dirGetDirection (dirGetDirection_init fat _ 5)
  have hwellFormed : WellFormed (smallMount 8).toGeometry
      (volume (smallMount 8).toGeometry (State.init fat fun _ => none).fat) := hv.wellFormed
  have hclimbs : ∀ up ∈ [findWork 5 [dot, dot], findWork 5 [dot, dot]], up.Climbs 5 := by
    simp [climbs_findWork]
  obtain ⟨w, hups, hroot⟩ := (climbing_returns hm hheap hwellFormed hown
    (startingCluster_init _ fat _ 5) hdowns hdown (le_refl 1) hanchored).2 _ hclimbs rfl
  exact ⟨fat, t', u', w, hdowns, hdown, hups, hroot⟩

/-- A task that went to `A/B/C` cannot go back. -/
theorem third_directory_has_no_way_back : ∃ fat t u r w,
    WellFormed (smallGeometry 8) (volume (smallGeometry 8) fat) ∧
      Run (Descends (smallMount 8) 5) (State.init fat fun _ => none)
        [findWork 5 [65], findWork 5 [66]] t ∧
      Descends (smallMount 8) 5 t (findWork 5 [67]) u ∧ (findWork 5 [dot, dot]).Climbs 5 ∧
      Serves (smallMount 8) u (findWork 5 [dot, dot]) r w ∧ r.ok = false := by
  let up := findWork 5 [dot, dot]
  let goes (fat : Fat.State) : Bool := ((descend 0 [65, 66] (State.init fat fun _ => none)).bind
    fun t => (descend 2 [67] t).bind fun u =>
      (fsHandleRequest (smallMount 8) 3 up.req up.given u).map fun r => (t, u, r)).any
        fun found => !found.2.2.1.ok
  have hevaluated :
      (makeNested.run (smallMount 8) 0 emptyStart).any (fun r => goes r.2) = true := by
    decide +kernel
  obtain ⟨fat, hv, -, hgoes⟩ := exists_nested hevaluated
  obtain ⟨⟨t, u, r, w⟩, hrun, hfailed⟩ := any_eq_true _ _ |>.mp hgoes
  obtain ⟨t', hfirst, hrest⟩ := bind_eq_some_iff.mp hrun
  obtain ⟨u', hsecond, hrest⟩ := bind_eq_some_iff.mp hrest
  obtain ⟨⟨r', w'⟩, hserved, htuple⟩ := map_eq_some_iff.mp hrest
  obtain ⟨rfl, rfl, rfl, rfl⟩ : t' = t ∧ u' = u ∧ r' = r ∧ w' = w := by simpa using htuple
  have hdown : Descends (smallMount 8) 5 t' (findWork 5 [67]) u' :=
    descends_of_descend (by decide) hsecond
  exact ⟨fat, t', u', r', w', hv.wellFormed,
    run_of_descend (by decide) hfirst, hdown, climbs_findWork,
    ⟨3, hserved⟩, by simpa using hfailed⟩

end Taavi.Fs
