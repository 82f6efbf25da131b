import Taavi.Fat.Tree

/-!
# Creating entries

What `fat32_create_dirent` and `fat32_mkdirp` find, fill and where they stop, as relations. Where
`fat32_mkdirp` extends a directory without clearing the new cluster, its relation says nothing.
-/

namespace Taavi.Fat

open Lib

variable {m : Mount} {g : Geometry} {s t : State} {v v' : Volume} {d f i n : ℕ}
  {path rest name83 : List UInt8} {attr : UInt8} {r : Bool}

theorem firstSegment_length_pos (hpath : path ≠ []) (hslash : path.headD 0 ≠ slash) :
    0 < (firstSegment path).length := by
  cases path with
  | nil => exact absurd rfl hpath
  | cons c path =>
    have hc : c ≠ slash := hslash
    simp [firstSegment, hc]

theorem dropWhile_slash_head (path : List UInt8) :
    path.dropWhile (· == slash) ≠ [] → (path.dropWhile (· == slash)).headD 0 ≠ slash := by
  induction path with
  | nil => simp
  | cons c path ih =>
    by_cases hc : c = slash
    · simpa [hc] using ih
    · simp [hc]

theorem walkDirPath_eq_some (h : walkDirPath path = some (name83, rest)) :
    (∃ segment, name83 = format83 segment) ∧ rest.length < path.length := by
  unfold walkDirPath at h
  simp only at h
  split_ifs at h with hempty
  cases h
  refine ⟨⟨_, rfl⟩, ?_⟩
  have hne : path.dropWhile (· == slash) ≠ [] := by simpa using hempty
  have hpos := firstSegment_length_pos hne (dropWhile_slash_head path hne)
  have hlen := (List.dropWhile_suffix (l := path) (· == slash)).length_le
  have hnonempty := List.length_pos_iff.mpr hne
  rw [List.length_drop]
  omega

theorem walkDirPath_nil : walkDirPath [] = none := rfl

/-- The path has `n` segments. -/
inductive Segments : List UInt8 → ℕ → Prop
  | none {path : List UInt8} : walkDirPath path = none → Segments path 0
  | some {path name83 rest : List UInt8} {n : ℕ} : walkDirPath path = some (name83, rest) →
      Segments rest n → Segments path (n + 1)

theorem addEntry_spec (hm : Ready m) (hd : InRange m d)
    (hv : volume m s = v) (hfree : nextFree m v = some f) :
    Ends (addEntry m d (v.data d) i name83 attr) s fun r t =>
      (r = some f ∧ Effect m s t (v.addEntry m d i name83 attr f) s.live) ∨
      (r = none ∧ HeapFails m ∧ ∃ v', Effect m s t v' s.live ∧ (v' = v ∨ v' = v.take f)) := by
  subst hv
  have hf := (Effect.refl m s).inRange_of_nextFree hfree
  refine (allocCluster_spec hm hfree).bind ?_
  rintro cluster t (⟨rfl, ht, -⟩ | ⟨rfl, hfail, ht⟩)
  · have hpos := hf.ne_invalid
    rw [if_neg hpos]
    -- the cluster was marked as an end when it was allocated
    have hlast : (volume m t).cells cluster = .last := by
      rw [ht.volume]
      simp
    refine (setCluster_of_last hm hlast).bind ?_
    rw [ht.volume, ht.live]
    rintro _ u ⟨hu, ⟨rfl, -⟩ | ⟨rfl, hfail⟩⟩
    · replace hu := ht.trans hu
      refine (hu.writeCluster hm hd _).bind ?_
      rintro _ w ⟨rfl, hw⟩
      refine (hw.writeCluster hm hf _).bind ?_
      rintro _ x ⟨rfl, hx⟩
      have hzero : clip m (fun _ => 0) = fun _ => 0 := funext fun x => ite_self _
      rw [hzero] at hx
      exact ends_pure (.inl ⟨rfl, hx⟩)
    · exact ends_pure (.inr ⟨rfl, hfail, _, ht.trans hu, .inr rfl⟩)
  · exact ends_pure (.inr ⟨rfl, hfail, _, ht, .inl rfl⟩)

def namedSlot (g : Geometry) (v : Volume) (d : ℕ) (name83 : List UInt8) : Option ℕ :=
  firstSlot (calculateMaxDirEntries g) (isDirectoryNamed (v.data d) · name83)

def unusedSlot (g : Geometry) (v : Volume) (d : ℕ) : Option ℕ :=
  firstSlot (calculateMaxDirEntries g) (isUnused (v.data d))

/-- What `fat32_create_dirent` does in a cluster `d`, with its result. -/
inductive Created (m : Mount) (v : Volume) (d : ℕ) (path : List UInt8) (attr : UInt8) :
    Bool → Volume → Prop
  | failed {v' : Volume} : HeapFails m →
      (v' = v ∨ ∃ f, nextFree m v = some f ∧ v' = v.take f) →
      Created m v d path attr false v'
  | unnamed : walkDirPath path = none → Created m v d path attr false v
  | found {name83 rest : List UInt8} {i : ℕ} : walkDirPath path = some (name83, rest) →
      namedSlot m v d name83 = some i → Created m v d path attr true v
  | full {name83 rest : List UInt8} : walkDirPath path = some (name83, rest) →
      namedSlot m v d name83 = none → unusedSlot m v d = none →
      Created m v d path attr false v
  | added {name83 rest : List UInt8} {i f : ℕ} : walkDirPath path = some (name83, rest) →
      namedSlot m v d name83 = none → unusedSlot m v d = some i →
      nextFree m v = some f →
      Created m v d path attr true (v.addEntry m d i name83 attr f)

theorem createDirent_spec (hm : Ready m) (hd : InRange m d)
    (hv : volume m s = v) (hfree : nextFree m v = some f) (path : List UInt8) (attr : UInt8) :
    Ends (createDirent m d path attr) s fun r t =>
      ∃ v', Effect m s t v' s.live ∧ Created m v d path attr r v' := by
  subst hv
  refine (allocateBuffer_spec m s).bind ?_
  rintro _ t (⟨rfl, hfail, ht⟩ | ⟨block, rfl, ht⟩)
  · exact ends_pure ⟨_, ht, .failed hfail (.inl rfl)⟩
  · refine (ht.readCluster hm hd).bind ?_
    rintro _ u ⟨rfl, hu⟩
    simp only
    cases hwalk : walkDirPath path with
    | none => exact hu.ends_kfree fun w hw => ⟨_, hw, .unnamed hwalk⟩
    | some next =>
      obtain ⟨name83, rest⟩ := next
      simp only
      cases hnamed : namedSlot m (volume m s) d name83 with
      | some i =>
        unfold namedSlot at hnamed
        rw [hnamed]
        exact hu.ends_kfree fun w hw => ⟨_, hw, .found hwalk hnamed⟩
      | none =>
        unfold namedSlot at hnamed
        rw [hnamed]
        cases hunused : unusedSlot m (volume m s) d with
        | none =>
          unfold unusedSlot at hunused
          rw [hunused]
          exact hu.ends_kfree fun w hw => ⟨_, hw, .full hwalk hnamed hunused⟩
        | some i =>
          unfold unusedSlot at hunused
          rw [hunused]
          refine (addEntry_spec hm hd hu.volume hfree).bind ?_
          rw [hu.live]
          rintro _ w (⟨rfl, hw⟩ | ⟨rfl, hfail, v', hw, hv'⟩)
          · exact (hu.trans hw).ends_kfree fun x hx =>
              ⟨_, hx, .added hwalk hnamed hunused hfree⟩
          · refine (hu.trans hw).ends_kfree fun x hx => ⟨_, hx, .failed hfail ?_⟩
            exact hv'.imp_right fun h => ⟨f, hfree, h⟩

theorem Sane.nextFree_lt (hg : Sane g) (h : nextFree g v = some f) : f < 2 ^ 32 :=
  (nextFree_eq_some.mp h).2.1.trans_le (hg.marks.trans (by decide))

theorem walkDirPath_length (h : walkDirPath path = some (name83, rest)) : name83.length = 11 := by
  obtain ⟨⟨segment, rfl⟩, -⟩ := walkDirPath_eq_some h
  exact format83_length segment

theorem room_addEntry (h : nextFree g v = some f) :
    room g (v.addEntry g d i name83 attr f) + 1 = room g v :=
  (congrArg (· + 1) (room_congr rfl fun _ => Iff.rfl)).trans (room_take h)

theorem Created.progress (hm : Ready m) (h : Created m v d path attr r v')
    (hv : Consistent m v) (F : ℕ → Prop) : Progress m F v v' := by
  cases h with
  | failed _ hv' =>
    rcases hv' with rfl | ⟨f, hfree, rfl⟩
    · exact .refl hv
    · exact hv.take (free_of_nextFree hfree)
  | unnamed | found | full => exact .refl hv
  | added hwalk _ _ hfree =>
    exact hv.addEntry (free_of_nextFree hfree) (hm.sane.nextFree_lt hfree)
      (walkDirPath_length hwalk)

/-- `fat32_mkdirp` finds what it looks for in first clusters, and has to make `n` directories, for
the first of which there is an unused slot. -/
inductive Enters (g : Geometry) (v : Volume) : ℕ → List UInt8 → ℕ → Prop
  | stop {d : ℕ} {path : List UInt8} : walkDirPath path = none → Enters g v d path 0
  | found {d i n : ℕ} {path name83 rest : List UInt8} : walkDirPath path = some (name83, rest) →
      namedSlot g v d name83 = some i → Enters g v (slot v d i).cluster rest n →
      Enters g v d path n
  | missing {d i n : ℕ} {path name83 rest : List UInt8} : walkDirPath path = some (name83, rest) →
      namedSlot g v d name83 = none → unusedSlot g v d = some i → Segments rest n →
      Enters g v d path (n + 1)

/-- What `fat32_mkdirp` does from a directory `d` on, with its result. -/
inductive Mkdirp (m : Mount) : Volume → ℕ → List UInt8 → Bool → Volume → Prop
  | failed {v v' : Volume} {d : ℕ} {path : List UInt8} : HeapFails m →
      (v' = v ∨ ∃ f, nextFree m v = some f ∧ v' = v.take f) →
      Mkdirp m v d path false v'
  | done {v : Volume} {d : ℕ} : Mkdirp m v d [] true v
  | unnamed {v : Volume} {d : ℕ} {path : List UInt8} : walkDirPath path = none →
      Mkdirp m v d path false v
  | found {v v' : Volume} {d i : ℕ} {path name83 rest : List UInt8} {r : Bool} :
      walkDirPath path = some (name83, rest) → namedSlot m v d name83 = some i →
      Mkdirp m v (slot v d i).cluster rest r v' → Mkdirp m v d path r v'
  | added {v v' : Volume} {d i f : ℕ} {path name83 rest : List UInt8} {r : Bool} :
      walkDirPath path = some (name83, rest) → namedSlot m v d name83 = none →
      unusedSlot m v d = some i → nextFree m v = some f →
      Mkdirp m (v.addEntry m d i name83 attrDirectory f) f rest r v' →
      Mkdirp m v d path r v'

theorem Mkdirp.progress (hm : Ready m) (h : Mkdirp m v d path r v')
    (hv : Consistent m v) (F : ℕ → Prop) : Progress m F v v' := by
  induction h with
  | failed _ hv' =>
    rcases hv' with rfl | ⟨f, hfree, rfl⟩
    · exact .refl hv
    · exact hv.take (free_of_nextFree hfree)
  | done => exact .refl hv
  | unnamed _ => exact .refl hv
  | found _ _ _ ih => exact ih hv
  | @added v v' d i f path name83 rest r hwalk _ _ hfree _ ih =>
    have hadd : Progress m F v (v.addEntry m d i name83 attrDirectory f) :=
      hv.addEntry (free_of_nextFree hfree) (hm.sane.nextFree_lt hfree)
        (walkDirPath_length hwalk)
    exact hadd.trans (ih hadd.consistent) fun a ha => .inl ha

theorem Consistent.isDirectory_of_namedSlot (hv : Consistent g v)
    (hdir : IsDirectory g v d ∨ ∀ name83, namedSlot g v d name83 = none)
    (hwalk : walkDirPath path = some (name83, rest)) (hslot : namedSlot g v d name83 = some i) :
    IsDirectory g v (slot v d i).cluster := by
  obtain ⟨hi, hnamed, -⟩ := firstSlot_eq_some.mp hslot
  obtain ⟨hused, hname, hisDir⟩ := isDirectoryNamed_iff.mp hnamed
  obtain ⟨⟨segment, rfl⟩, -⟩ := walkDirPath_eq_some hwalk
  have hhead := format83_head segment
  rcases hdir with hdir | hnone
  · obtain ⟨l, hl⟩ := hv.exists_chain hdir
    refine .child hdir ⟨⟨l, hl, hl.self_mem⟩, hi, hused, ?_, ?_⟩ hisDir
    · intro hdot
      rw [← hname, show (entryAt (v.data d) i).name = dotName from hdot] at hhead
      exact hhead rfl
    · intro hdot
      rw [← hname, show (entryAt (v.data d) i).name = dotDotName from hdot] at hhead
      exact hhead rfl
  · simp [hnone] at hslot

theorem slots_of_zero (hg : Sane g) (hzero : v.data d = fun _ => 0) :
    (∀ name83, namedSlot g v d name83 = none) ∧ unusedSlot g v d = some 0 := by
  constructor
  · intro name83
    refine firstSlot_eq_none.mpr fun i _ => ?_
    rw [hzero]
    rfl
  · refine firstSlot_eq_some.mpr ⟨?_, by rw [hzero]; rfl, by simp⟩
    have hsectors := hg.sectors
    unfold calculateMaxDirEntries sectorSize direntSize
    omega

theorem enters_of_zero (hg : Sane g) (hzero : v.data d = fun _ => 0) (h : Segments path n) :
    Enters g v d path n := by
  obtain ⟨hnamed, hunused⟩ := slots_of_zero hg hzero
  cases h with
  | none hwalk => exact .stop hwalk
  | some hwalk hrest => exact .missing hwalk (hnamed _) hunused hrest

theorem mkdirpLoop_spec (hm : Ready m) {block fuel : ℕ} {live : List ℕ}
    (hv : Consistent m v) (hd : InRange m d)
    (hdir : IsDirectory m v d ∨ ∀ name83, namedSlot m v d name83 = none)
    (henters : Enters m v d path n) (hroom : n ≤ room m v)
    (hfuel : path.length < fuel) (ht : Effect m s t v (block :: live)) :
    Ends (mkdirpLoop m block fuel d path) t fun r u =>
      ∃ v', Effect m s u v' live ∧ Mkdirp m v d path r v' := by
  induction fuel generalizing d path v t n with
  | zero => omega
  | succ fuel ih =>
    unfold mkdirpLoop
    by_cases hempty : path = []
    · subst hempty
      exact ht.ends_kfree fun u hu => ⟨_, hu, .done⟩
    · have hnonempty : path.isEmpty = false := by simpa using hempty
      simp only [hnonempty]
      refine (ht.readCluster hm hd).bind ?_
      rintro _ u ⟨rfl, hu⟩
      cases henters with
      | stop hwalk =>
        simp only [hwalk]
        exact hu.ends_kfree fun w hw => ⟨_, hw, .unnamed hwalk⟩
      | @found d i n path name83 rest hwalk hnamed hrest =>
        have hshort := (walkDirPath_eq_some hwalk).2
        have hslot := hnamed
        unfold namedSlot at hslot
        have hclus : entryCluster (v.data d) i = (slot v d i).cluster := rfl
        simp only [hwalk, hslot, hclus]
        have hchild := hv.isDirectory_of_namedSlot hdir hwalk hnamed
        have hrange : InRange m (slot v d i).cluster := ht.inRange (hv.head hchild).used
        refine (ih hv hrange (.inl hchild) hrest hroom (by omega) hu).imp ?_
        rintro r w ⟨v', hw, hmade⟩
        exact ⟨v', hw, .found hwalk hnamed hmade⟩
      | @missing d i n path name83 rest hwalk hnamed hunused hsegs =>
        have hshort := (walkDirPath_eq_some hwalk).2
        have hslot := hnamed
        unfold namedSlot at hslot
        have hslot' := hunused
        unfold unusedSlot at hslot'
        obtain ⟨f, hfree⟩ := exists_nextFree (g := m) (v := v) (by omega)
        simp only [hwalk, hslot, hslot']
        refine (addEntry_spec hm hd hu.volume hfree).bind ?_
        rw [hu.live]
        rintro _ w (⟨rfl, hw⟩ | ⟨rfl, hfail, v', hw, hv'⟩)
        · have hadd : Progress m (fun _ => False) v (v.addEntry m d i name83 attrDirectory f) :=
            hv.addEntry (free_of_nextFree hfree) (hm.sane.nextFree_lt hfree)
              (walkDirPath_length hwalk)
          have hzero : (v.addEntry m d i name83 attrDirectory f).data f =
              fun _ => 0 := by simp [Volume.addEntry]
          have hroom' : room m (v.addEntry m d i name83 attrDirectory f) + 1 =
              room m v := room_addEntry hfree
          have hrange : InRange m f := ht.inRange_of_nextFree hfree
          refine (ih hadd.consistent hrange (.inr (slots_of_zero hm.sane hzero).1)
            (enters_of_zero hm.sane hzero hsegs) (by omega) (by omega) (hu.trans hw)).imp ?_
          rintro r x ⟨v', hx, hmade⟩
          exact ⟨v', hx, .added hwalk hnamed hunused hfree hmade⟩
        · refine (hu.trans hw).ends_kfree fun x hx => ⟨_, hx, .failed hfail ?_⟩
          exact hv'.imp_right fun h => ⟨f, hfree, h⟩

theorem mkdirp_spec (hm : Ready m) (hvol : volume m s = v)
    (hv : Consistent m v) (hd : IsDirectory m v d)
    (henters : Enters m v d path n) (hroom : n ≤ room m v) :
    Ends (mkdirp m d path) s fun r t =>
      ∃ v', Effect m s t v' s.live ∧ Mkdirp m v d path r v' := by
  subst hvol
  refine (allocateBuffer_spec m s).bind ?_
  rintro _ t (⟨rfl, hfail, ht⟩ | ⟨block, rfl, ht⟩)
  · exact ends_pure ⟨_, ht, .failed hfail (.inl rfl)⟩
  · exact mkdirpLoop_spec hm hv (inRange_of_used (hv.head hd).used) (.inl hd) henters hroom
      (by omega) ht

end Taavi.Fat
