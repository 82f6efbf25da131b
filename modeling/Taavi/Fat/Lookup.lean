import Taavi.Fat.Creation
import Taavi.Fat.Walks

/-!
# Finding entries

What `__fat32_search_dir`, `fat32_find_cluster` and `fat32_find_parent_cluster` find: the first
entry with a name, a path segment by segment, and a parent among the entries of the root directory
only.
-/

namespace Taavi.Fat

open Lib List Option

variable {m : Mount} {g : Geometry} {s t : State} {v : Volume} {live : List ℕ} {c d i : ℕ}
  {k : List ℕ} {path name83 : List UInt8}

/-- The clusters in use form disjoint chains that end, and directories begin at first clusters. -/
structure WellFormed (g : Geometry) (v : Volume) : Prop where
  cells : Sound v.cells
  directories : ∀ d, IsDirectory g v d → Head v.cells d

theorem Consistent.wellFormed (hv : Consistent g v) : WellFormed g v := ⟨hv.cells, fun _ => hv.head⟩

theorem WellFormed.exists_chain (hv : WellFormed g v) (hd : IsDirectory g v d) :
    ∃ k, Chain v.cells d k := hv.cells.ends d (hv.directories d hd).used

theorem length_le_of_chain (hk : Chain (volume g s).cells c k) :
    k.length ≤ g.maximumClusterSize := by
  have hsub : k.Subperm (List.range g.maximumClusterSize) :=
    subperm_of_subset hk.nodup fun x hx =>
      mem_range.mpr (inRange_of_used (hk.used_of_mem hx)).2
  simpa using hsub.length_le

def Entry.stops (name83 : List UInt8) (e : Entry) : Bool :=
  e.name.headD 0 == direntFree ||
    (e.name.headD 0 != direntDeleted && e.attr &&& longFileName != longFileName && e.name == name83)

def entrySlot (g : Geometry) (v : Volume) (name83 : List UInt8) (k : List ℕ) : Option (ℕ × ℕ) :=
  (findSlot g v (Entry.stops name83) k).filter fun place =>
    (slot v place.1 place.2).name.headD 0 != direntFree

/-- What `__fat32_search_dir` stores for an entry. -/
def Entry.found (e : Entry) : Found := ⟨e.cluster, e.size, e.attr⟩

theorem listed_of_entrySlot (hk : Chain v.cells d k) {filename : List UInt8}
    (h : entrySlot g v (format83 filename) k = some (c, i)) : Listed g v d c i := by
  obtain ⟨hfind, hfree⟩ := filter_eq_some_iff.mp h
  obtain ⟨hc, hi, hstops⟩ := findSlot_eq_some hfind
  have hfree' : ((slot v c i).name.headD 0 == direntFree) = false := by simpa using hfree
  simp only [Entry.stops, hfree', Bool.false_or, Bool.and_eq_true, bne_iff_ne, beq_iff_eq] at hstops
  obtain ⟨⟨hdel, -⟩, hname⟩ := hstops
  have hhead := format83_head filename
  rw [← hname] at hhead
  refine ⟨⟨k, hk, hc⟩, hi, ?_, ?_, ?_⟩
  · rw [Entry.unused, hfree', Bool.false_or]
    simpa using hdel
  all_goals
    intro hdot
    rw [hdot] at hhead
    exact hhead rfl

theorem entrySlot_cons (h : firstSlot (calculateMaxDirEntries g)
    (fun i => (slot v c i).stops name83) = none) :
    entrySlot g v name83 (c :: k) = entrySlot g v name83 k := by
  rw [entrySlot, findSlot, h, entrySlot]

theorem searchDir_spec (hm : Ready m) {fuel : ℕ} (hvol : volume m s = v)
    (hk : Chain v.cells d k) (hfuel : k.length + 1 < fuel) (name83 : List UInt8) :
    Ends (searchDir m fuel d name83) s fun r t => Effect m s t v s.live ∧
      ((r = none ∧ HeapFails m) ∨
        r = (entrySlot m v name83 k).map fun place => (slot v place.1 place.2).found) := by
  subst hvol
  refine (allocateBuffer_spec m s).bind ?_
  rintro _ t (⟨rfl, hfail, ht⟩ | ⟨block, rfl, ht⟩)
  · exact ends_pure ⟨ht, .inl ⟨rfl, hfail⟩⟩
  · let v := volume m s
    refine ends_walk
      (fun c k' t => Effect m s t v (block :: s.live) ∧ Chain v.cells c k' ∧
        entrySlot m v name83 k' = entrySlot m v name83 k)
      (fun t => HeapFails m ∧ Effect m s t v (block :: s.live)) ?_ ?_
      ⟨ht, hk, rfl⟩ hfuel
    · rintro c k' t ⟨ht, hk', hrest⟩
      have hc : InRange m c := ht.inRange hk'.used
      unfold searchCluster
      refine (ht.readCluster hm hc).bind ?_
      rintro _ u ⟨rfl, hu⟩
      have hslots : firstSlot (calculateMaxDirEntries m) (stopsSearch (v.data c) name83) =
          firstSlot (calculateMaxDirEntries m) (fun i => (slot v c i).stops name83) := rfl
      simp only [hslots]
      cases hfst : firstSlot (calculateMaxDirEntries m) (fun i => (slot v c i).stops name83) with
      | some i =>
        obtain ⟨k', rfl⟩ := hk'.exists_cons
        have hfind : findSlot m v (Entry.stops name83) (c :: k') = some (c, i) := by
          rw [findSlot, hfst]
        refine hu.kfree.bind fun _ w hw => ?_
        cases hfree : (v.data c) (i * direntSize) == direntFree with
        | true =>
          have hnone : entrySlot m v name83 (c :: k') = none := by
            rw [entrySlot, hfind, filter_some, slot, entryName_head, bne, hfree]
            rfl
          refine ends_pure (.inr (.inr ⟨none, rfl, hw, .inr ?_⟩))
          rw [← hrest, hnone]
          rfl
        | false =>
          have hsome : entrySlot m v name83 (c :: k') = some (c, i) := by
            rw [entrySlot, hfind, filter_some, slot, entryName_head, bne, hfree]
            rfl
          refine ends_pure (.inr (.inr ⟨some (slot v c i).found, rfl, hw, .inr ?_⟩))
          rw [← hrest, hsome]
          rfl
      | none =>
        refine hu.ends_next hm hk' ?_ ?_ ?_
        · intro hlast w hw
          refine hw.ends_kfree fun x hx => .inr (.inr ⟨none, rfl, hx, .inr ?_⟩)
          rw [← hrest, hk'.unique (.last hlast), entrySlot_cons hfst]
          rfl
        · intro d k'' hcons hd w hw
          refine .inr (.inl ⟨d, k'', rfl, hcons, hw, hd, ?_⟩)
          rw [← hrest, hcons, entrySlot_cons hfst]
        · intro hfail w hw
          exact .inl ⟨rfl, hfail, hw⟩
    · rintro t ⟨hfail, ht⟩
      exact ht.ends_kfree fun u hu => ⟨none, rfl, hu, .inl ⟨rfl, hfail⟩⟩

def headName (path : List UInt8) : List UInt8 := format83 (firstSegment path)

/-- What follows the first segment of a path. -/
def tailPath (path : List UInt8) : List UInt8 := path.drop (firstSegment path).length

/-- The entry of the last segment of a path from `d`, with the directory that has it, or nothing. -/
inductive Resolves (g : Geometry) (v : Volume) : ℕ → List UInt8 → Option Resolved → Prop
  | stop {d : ℕ} : Resolves g v d [] none
  | missing {d : ℕ} {k : List ℕ} {path : List UInt8} : path ≠ [] → Chain v.cells d k →
      entrySlot g v (headName path) k = none → Resolves g v d path none
  | last {d c i : ℕ} {k : List ℕ} {path : List UInt8} : path ≠ [] → Chain v.cells d k →
      entrySlot g v (headName path) k = some (c, i) → tailPath path = [] →
      Resolves g v d path (some ⟨(slot v c i).cluster, d, (slot v c i).size, (slot v c i).attr⟩)
  | blocked {d c i : ℕ} {k : List ℕ} {path : List UInt8} : path ≠ [] → Chain v.cells d k →
      entrySlot g v (headName path) k = some (c, i) → tailPath path ≠ [] → ¬(slot v c i).IsDir →
      Resolves g v d path none
  | enter {d c i : ℕ} {k : List ℕ} {path : List UInt8} {r : Option Resolved} : path ≠ [] →
      Chain v.cells d k → entrySlot g v (headName path) k = some (c, i) → tailPath path ≠ [] →
      (slot v c i).IsDir → Resolves g v (slot v c i).cluster (skipSlash (tailPath path)) r →
      Resolves g v d path r

theorem Resolves.listed {r : Resolved} (hd : IsDirectory g v d)
    (h : Resolves g v d path (some r)) : IsDirectory g v r.dirCluster ∧ ∃ c i,
      Listed g v r.dirCluster c i ∧ (slot v c i).cluster = r.fileCluster ∧
        (slot v c i).attr = r.attr ∧ (slot v c i).size = r.size := by
  generalize hout : some r = out at h
  induction h with
  | stop | missing | blocked => cases hout
  | @last d c i k path _ hk hslot =>
    cases hout
    exact ⟨hd, c, i, listed_of_entrySlot hk hslot, rfl, rfl, rfl⟩
  | enter _ hk hslot _ hdir _ ih => exact ih (.child hd (listed_of_entrySlot hk hslot) hdir) hout

/-- A path leads from a directory to the directory `d`, where its last segment has the name. -/
inductive Reaches (g : Geometry) (v : Volume) : ℕ → List UInt8 → ℕ → List UInt8 → Prop
  | last {d : ℕ} {path : List UInt8} : path ≠ [] → tailPath path = [] →
      Reaches g v d path d (headName path)
  | enter {start c i d : ℕ} {k : List ℕ} {path name83 : List UInt8} : path ≠ [] →
      Chain v.cells start k → entrySlot g v (headName path) k = some (c, i) → tailPath path ≠ [] →
      (slot v c i).IsDir → Reaches g v (slot v c i).cluster (skipSlash (tailPath path)) d name83 →
      Reaches g v start path d name83

theorem Reaches.resolved {start : ℕ} {p : ℕ × ℕ} {r : Option Resolved}
    (h : Reaches g v start path d name83) (hk : Chain v.cells d k)
    (hp : entrySlot g v name83 k = some p) (hr : Resolves g v start path r) :
    r = some ⟨(slot v p.1 p.2).cluster, d, (slot v p.1 p.2).size, (slot v p.1 p.2).attr⟩ := by
  induction h with
  | last hne htail =>
    cases hr with
    | stop => exact absurd rfl hne
    | missing _ hk' hnone =>
      rw [hk'.unique hk, hp] at hnone
      cases hnone
    | last _ hk' hsome _ =>
      rw [hk'.unique hk, hp] at hsome
      cases hsome
      rfl
    | blocked _ _ _ htail' _ => exact absurd htail htail'
    | enter _ _ _ htail' _ _ => exact absurd htail htail'
  | enter hne hk₀ hentry htail hdir _ ih =>
    cases hr with
    | stop => exact absurd rfl hne
    | missing _ hk' hnone =>
      rw [hk'.unique hk₀, hentry] at hnone
      cases hnone
    | last _ _ _ htail' => exact absurd htail' htail
    | blocked _ hk' hsome _ hnot =>
      rw [hk'.unique hk₀, hentry] at hsome
      cases hsome
      exact absurd hdir hnot
    | enter _ hk' hsome _ _ hrest =>
      rw [hk'.unique hk₀, hentry] at hsome
      cases hsome
      exact ih hk hp hrest

theorem length_skipSlash_le (path : List UInt8) : (skipSlash path).length ≤ path.length := by
  cases path with
  | nil => exact le_refl 0
  | cons c path =>
    rw [skipSlash]
    split_ifs
    · exact Nat.le_succ _
    · exact le_refl _

theorem length_skipSlash_tailPath (hpath : path ≠ []) :
    (skipSlash (tailPath path)).length < path.length := by
  by_cases hslash : path.headD 0 = slash
  · cases path with
    | nil => exact absurd rfl hpath
    | cons c path =>
      have htail : tailPath (c :: path) = c :: path := by
        have hc : c = slash := hslash
        simp [tailPath, firstSegment, hc]
      have hc : (c == slash) = true := beq_iff_eq.mpr hslash
      rw [htail, skipSlash, if_pos hc]
      exact Nat.lt_succ_self _
  · have hpos := firstSegment_length_pos hpath hslash
    refine (length_skipSlash_le _).trans_lt ?_
    have hlen := length_pos_of_ne_nil hpath
    rw [tailPath, length_drop]
    omega

theorem findLoop_spec (hm : Ready m) {fuel passes : ℕ} (hvol : volume m s = v)
    (hv : WellFormed m v) (hd : IsDirectory m v d)
    (hfuel : m.maximumClusterSize + 1 < fuel) (hpasses : path.length < passes) :
    Ends (findLoop m fuel passes d path) s fun r t => Effect m s t v s.live ∧
      ((r = none ∧ HeapFails m) ∨ Resolves m v d path r) := by
  induction passes generalizing s d path with
  | zero => exact absurd hpasses (Nat.not_lt_zero _)
  | succ passes ih =>
    subst hvol
    let v := volume m s
    by_cases hpath : path = []
    · subst hpath
      exact ends_pure ⟨.refl _ s, .inr .stop⟩
    · obtain ⟨k, hk⟩ := hv.exists_chain hd
      have hlen : k.length + 1 < fuel := by
        have hle := length_le_of_chain hk
        omega
      have hempty : path.isEmpty = false := by simpa using hpath
      rw [findLoop, hempty, if_neg (by decide)]
      refine (searchDir_spec hm rfl hk hlen (headName path)).bind ?_
      rintro found t ⟨ht, ⟨rfl, hfail⟩ | hfound⟩
      · exact ends_pure ⟨ht, .inl ⟨rfl, hfail⟩⟩
      cases hslot : entrySlot m v (headName path) k with
      | none =>
        rw [hslot] at hfound
        subst hfound
        exact ends_pure ⟨ht, .inr (.missing hpath hk hslot)⟩
      | some place =>
        obtain ⟨c, i⟩ := place
        rw [hslot] at hfound
        subst hfound
        dsimp only [map_some]
        by_cases htail : tailPath path = []
        · have hzero : d ≠ 0 := by
            have hrange := inRange_of_used (hv.directories d hd).used
            have hlow := hrange.1
            omega
          have htail' : (path.drop (firstSegment path).length).isEmpty = true := by
            simpa [tailPath] using htail
          rw [if_pos htail', if_neg hzero]
          exact ends_pure ⟨ht, .inr (.last hpath hk hslot htail)⟩
        · have htail' : (path.drop (firstSegment path).length).isEmpty = false := by
            simpa [tailPath] using htail
          rw [htail', if_neg (by decide)]
          by_cases hattr : (slot v c i).IsDir
          · have hattr' : ((slot v c i).found.attr &&& attrDirectory == 0) = false := by
              simpa [Entry.IsDir, Entry.found] using hattr
            rw [hattr', if_neg (by decide)]
            have hchild : IsDirectory m v (slot v c i).cluster :=
              .child hd (listed_of_entrySlot hk hslot) hattr
            have hshort := length_skipSlash_tailPath hpath
            have hpasses' : (skipSlash (tailPath path)).length < passes := by omega
            refine (ih ht.volume hchild hpasses').imp ?_
            rintro r u ⟨hu, hr⟩
            rw [ht.live] at hu
            refine ⟨ht.trans hu, hr.imp_right fun hr => ?_⟩
            exact .enter hpath hk hslot htail hattr hr
          · have hattr' : ((slot v c i).found.attr &&& attrDirectory == 0) = true := by
              simpa [Entry.IsDir, Entry.found] using hattr
            rw [hattr', if_pos rfl]
            exact ends_pure ⟨ht, .inr (.blocked hpath hk hslot htail hattr)⟩

theorem findCluster_spec (hm : Ready m) {fuel : ℕ} (hvol : volume m s = v)
    (hv : WellFormed m v) (hd : IsDirectory m v d)
    (hfuel : m.maximumClusterSize + 1 < fuel) (path : List UInt8) :
    Ends (findCluster m fuel d path) s fun r t => Effect m s t v s.live ∧
      ((r = none ∧ HeapFails m) ∨ Resolves m v d (skipSlash path) r) :=
  findLoop_spec hm hvol hv hd hfuel (Nat.lt_succ_of_le (length_skipSlash_le path))

/-- What `fat32_find_parent_cluster` finds, which looks at unused slots too. -/
def parentIn (g : Geometry) (v : Volume) (orphan : ℕ) : List ℕ → Option (Option ℕ)
  | [] => none
  | c :: k =>
    if c = orphan then some none
    else if (firstSlot (calculateMaxDirEntries g) fun i => (slot v c i).cluster == orphan).isSome
    then some (some c)
    else parentIn g v orphan k

theorem parentIn_eq_some {orphan : ℕ} (h : parentIn g v orphan k = some (some c)) :
    c ∈ k ∧ ∃ i < calculateMaxDirEntries g, (slot v c i).cluster = orphan := by
  induction k with
  | nil => cases h
  | cons e k ih =>
    unfold parentIn at h
    split_ifs at h with horphan hslot
    · cases h
    · obtain rfl := Option.some.inj (Option.some.inj h)
      obtain ⟨i, hi⟩ := isSome_iff_exists.mp hslot
      obtain ⟨hlt, hclus, -⟩ := firstSlot_eq_some.mp hi
      exact ⟨mem_cons_self, i, hlt, beq_iff_eq.mp hclus⟩
    · obtain ⟨hc, hexists⟩ := ih h
      exact ⟨mem_cons_of_mem _ hc, hexists⟩

theorem exists_parentIn {orphan : ℕ} (hc : c ∈ k) (hi : i < calculateMaxDirEntries g)
    (hclus : (slot v c i).cluster = orphan) : ∃ parent, parentIn g v orphan k = some parent := by
  induction k with
  | nil => cases hc
  | cons e k ih =>
    unfold parentIn
    split_ifs with horphan hslot
    · exact ⟨_, rfl⟩
    · exact ⟨_, rfl⟩
    · refine ih ((mem_cons.mp hc).resolve_left ?_)
      rintro rfl
      have hnone := not_isSome_iff_eq_none.mp hslot
      have hnot := firstSlot_eq_none.mp hnone i hi
      simp [hclus] at hnot

theorem findParentCluster_spec (hm : Ready m) {fuel : ℕ} (hvol : volume m s = v)
    (hk : Chain v.cells m.rootCluster k) (hfuel : k.length + 1 < fuel) (orphan : ℕ) :
    Ends (findParentCluster m fuel orphan) s fun r t =>
      (∃ live, Effect m s t v live ∧ s.live <:+ live) ∧
        ((r = none ∧ HeapFails m) ∨ r = parentIn m v orphan k) := by
  subst hvol
  refine (allocateBuffer_spec m s).bind ?_
  rintro _ t (⟨rfl, hfail, ht⟩ | ⟨block, rfl, ht⟩)
  · exact ends_pure ⟨⟨_, ht, suffix_refl _⟩, .inl ⟨rfl, hfail⟩⟩
  · let v := volume m s
    have hlive : s.live <:+ block :: s.live := suffix_cons _ _
    refine ends_walk
      (fun c k' t => Effect m s t v (block :: s.live) ∧ Chain v.cells c k' ∧
        parentIn m v orphan k' = parentIn m v orphan k)
      (fun t => HeapFails m ∧ Effect m s t v (block :: s.live)) ?_ ?_
      ⟨ht, hk, rfl⟩ hfuel
    · rintro c k' t ⟨ht, hk', hrest⟩
      have hc : InRange m c := ht.inRange hk'.used
      unfold parentCluster
      refine (ht.readCluster hm hc).bind ?_
      rintro _ u ⟨rfl, hu⟩
      obtain ⟨k', rfl⟩ := hk'.exists_cons
      by_cases horphan : c = orphan
      · dsimp only
        rw [if_pos horphan]
        refine ends_pure (.inr (.inr ⟨_, rfl, ⟨_, hu, hlive⟩, .inr ?_⟩))
        rw [← hrest, parentIn, if_pos horphan]
      · dsimp only
        rw [if_neg horphan]
        have hslots : firstSlot (calculateMaxDirEntries m)
            (fun i => entryCluster (v.data c) i == orphan) =
              firstSlot (calculateMaxDirEntries m) (fun i => (slot v c i).cluster == orphan) := rfl
        rw [parentIn, if_neg horphan] at hrest
        cases hfst : firstSlot (calculateMaxDirEntries m)
            (fun i => (slot v c i).cluster == orphan) with
        | some i =>
          simp only [hslots, hfst]
          rw [hfst, isSome_some, if_pos rfl] at hrest
          exact ends_pure (.inr (.inr ⟨_, rfl, ⟨_, hu, hlive⟩, .inr hrest⟩))
        | none =>
          simp only [hslots, hfst]
          rw [hfst, isSome_none, if_neg (by decide)] at hrest
          refine hu.ends_next hm hk' ?_ ?_ ?_
          · intro hlast w hw
            refine ends_pure (.inr (.inr ⟨none, rfl, ⟨_, hw, hlive⟩, .inr ?_⟩))
            obtain rfl : k' = [] := by
              have huniq := hk'.unique (.last hlast)
              exact (List.cons.inj huniq).2
            exact hrest
          · intro d k'' hcons hd w hw
            obtain rfl := (List.cons.inj hcons).2
            exact .inr (.inl ⟨d, _, rfl, rfl, hw, hd, hrest⟩)
          · intro hfail w hw
            exact .inl ⟨rfl, hfail, hw⟩
    · rintro t ⟨hfail, ht⟩
      exact ends_pure ⟨none, rfl, ⟨_, ht, hlive⟩, .inl ⟨rfl, hfail⟩⟩

theorem grows_searchDir (m : Mount) (d : ℕ) (name83 : List UInt8) :
    Grows fun n => searchDir m n d name83 :=
  grows_option (grows_const _) fun block => grows_iterate (searchCluster m block name83) d

theorem grows_findLoop (m : Mount) (passes d : ℕ) (path : List UInt8) :
    Grows fun n => findLoop m n passes d path := by
  induction passes generalizing d path with
  | zero => exact grows_const _
  | succ passes ih =>
    by_cases hpath : path.isEmpty = true
    · simp only [findLoop, if_pos hpath]
      exact grows_const _
    · simp only [findLoop, if_neg hpath]
      refine (grows_searchDir m d _).bind fun found => ?_
      cases found with
      | none => exact grows_const _
      | some found =>
        dsimp only
        by_cases htail : (path.drop (firstSegment path).length).isEmpty = true
        · simp only [if_pos htail]
          exact grows_const _
        · simp only [if_neg htail]
          by_cases hattr : (found.attr &&& attrDirectory == 0) = true
          · simp only [if_pos hattr]
            exact grows_const _
          · simp only [if_neg hattr]
            exact ih _ _

theorem grows_findParentCluster (m : Mount) (orphan : ℕ) :
    Grows fun n => findParentCluster m n orphan :=
  grows_option (grows_const _) fun _ => grows_iterate (parentCluster m orphan) _

end Taavi.Fat
