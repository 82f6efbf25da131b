import Taavi.Fat.Scans
import Taavi.Fat.System

/-!
# Deleted files

`fat32_delete_dirent` wipes the clusters of its target and frees the first slot of the parent with
its number. The clusters stay allocated in the table.
-/

namespace Taavi.Fat

open Lib List

variable {m : Mount} {g : Geometry} {s t : State} {v v' : Volume} {c d h i parent : ℕ} {k l : List ℕ}

/-- The entry of a cluster in a copy of the table, without its upper four bits. -/
def copyEntry (g : Geometry) (s : State) (copy c : ℕ) : ℕ :=
  (s.disk (g.fatStart + copy * g.sectorsPerFat + c / entriesPerSector)).read
    (c % entriesPerSector * 4) 4 &&& clusterMask

/-- The clusters are free in the copies of the table, and no other entry has changed. -/
structure SpaceReturned (g : Geometry) (s t : State) (l : List ℕ) : Prop where
  freed : ∀ copy < g.fatCount, ∀ c ∈ l, copyEntry g t copy c = clusterFree
  others : ∀ copy < g.fatCount, ∀ c, c < entriesPerSector * g.sectorsPerFat → c ∉ l →
    copyEntry g t copy c = copyEntry g s copy c

def freeClusters (g : Geometry) (v : Volume) : ℕ :=
  ((Finset.range g.maximumClusterSize).filter fun c => v.cells c = .free).card

theorem Sane.not_returned (hg : Sane g) (hl : Chain (volume g t).cells h l) :
    ¬SpaceReturned g s t l := by
  intro hreturned
  have hzero := hreturned.freed 0 (by rw [hg.fats]; decide) h hl.self_mem
  rw [copyEntry, zero_mul, add_zero] at hzero
  have hfree : (volume g t).cells h = .free := by
    rw [cells_eq (inRange_of_used hl.used)]
    exact cellOf_eq_free.mpr hzero
  rcases hl.used with hlast | ⟨next, hnext⟩
  · rw [hfree] at hlast
    cases hlast
  · rw [hfree] at hnext
    cases hnext

theorem deleted_of_run (hm : Ready m) {fuel : ℕ} {r : Bool}
    (hl : Chain (volume m s).cells h l) (hpar : InRange m parent)
    (hrun : deleteDirent m fuel h parent s = some (r, t)) :
    Deleted m (volume m s) l h parent r (volume m t) := by
  obtain ⟨r', t', hrun', v', ht, hdel⟩ :=
    deleteDirent_deletes hm rfl hl hpar (Nat.lt_succ_self (l.length + 1))
  have hsame := (grows_deleteDirent m h parent).agree hrun hrun'
  cases hsame
  rw [ht.volume]
  exact hdel

/-- For every file: `fat32_delete_dirent` returns, and no cluster of the file is given back. -/
theorem deleted_clusters_stay_allocated (hm : Ready m)
    (hl : Chain (volume m.toGeometry s).cells h l) (hparent : InRange m.toGeometry parent) :
    (HeapFails m ∨ ∃ fuel t, deleteDirent m fuel h parent s = some (true, t)) ∧
    ∀ fuel t, deleteDirent m fuel h parent s = some (true, t) →
      ¬SpaceReturned m.toGeometry s t l ∧
      (∀ c ∈ l, (volume m.toGeometry t).cells c ≠ .free) ∧
      freeClusters m.toGeometry (volume m.toGeometry t) =
        freeClusters m.toGeometry (volume m.toGeometry s) := by
  constructor
  · obtain ⟨r, t, hrun, v', ht, hdeleted⟩ :=
      deleteDirent_deletes hm rfl hl hparent (Nat.lt_succ_self (l.length + 1))
    cases hdeleted with
    | failed hfails _ => exact .inl hfails
    | missing _ | removed _ => exact .inr ⟨_, t, hrun⟩
  · intro fuel t hrun
    have hcells := (deleted_of_run hm hl hparent hrun).cells.1
    have hchain : Chain (volume m t).cells h l := by rwa [hcells]
    refine ⟨hm.sane.not_returned hchain, fun c hc hfree => ?_, ?_⟩
    · rcases hchain.used_of_mem hc with hlast | ⟨next, hnext⟩
      · rw [hfree] at hlast
        cases hlast
      · rw [hfree] at hnext
        cases hnext
    · rw [freeClusters, freeClusters, hcells]

theorem exists_deletedFile : ∃ s t,
    createDirent (smallMount 4) 2 [65] attrArchive emptyStart = some (true, s) ∧
      deleteDirent (smallMount 4) 4 3 2 s = some (true, t) ∧
      Chain (volume (smallGeometry 4) s).cells 3 [3] ∧
      Chain (volume (smallGeometry 4) t).cells 3 [3] := by
  have heval : (createDirent (smallMount 4) 2 [65] attrArchive emptyStart).any (fun r =>
      r.1 && decide ((volume (smallGeometry 4) r.2).cells 3 = .last) &&
        (deleteDirent (smallMount 4) 4 3 2 r.2).any fun r' =>
          r'.1 && decide ((volume (smallGeometry 4) r'.2).cells 3 = .last)) = true := by
    decide +kernel
  obtain ⟨⟨ok, s⟩, hcreate, hs⟩ := Option.any_eq_true _ _ |>.mp heval
  rw [Bool.and_eq_true, Bool.and_eq_true, decide_eq_true_iff] at hs
  obtain ⟨⟨rfl, hlast⟩, hdel⟩ := hs
  obtain ⟨⟨ok, t⟩, hdelete, ht⟩ := Option.any_eq_true _ _ |>.mp hdel
  rw [Bool.and_eq_true, decide_eq_true_iff] at ht
  obtain ⟨rfl, hlast'⟩ := ht
  exact ⟨s, t, hcreate, hdelete, .last hlast, .last hlast'⟩

/-- The deletion of a new file gives no cluster back. -/
theorem deletion_of_new_file_frees_nothing : ∃ s t,
    deleteDirent (smallMount 4) 4 3 2 s = some (true, t) ∧
      freeClusters (smallGeometry 4) (volume (smallGeometry 4) t) =
        freeClusters (smallGeometry 4) (volume (smallGeometry 4) s) := by
  obtain ⟨s, t, -, hdelete, hchain, -⟩ := exists_deletedFile
  have hm : Ready (smallMount 4) := ready_smallMount (by decide)
  have hparent : InRange (smallMount 4).toGeometry 2 := by decide
  obtain ⟨-, hafter⟩ := deleted_clusters_stay_allocated hm hchain hparent
  exact ⟨s, t, hdelete, (hafter 4 t hdelete).2.2⟩

/-- The cluster of a file that was created and deleted is not free. -/
theorem deleted_file_keeps_cluster : ∃ s t,
    createDirent (smallMount 4) 2 [65] attrArchive emptyStart = some (true, s) ∧
      deleteDirent (smallMount 4) 4 3 2 s = some (true, t) ∧
      Chain (volume (smallGeometry 4) s).cells 3 [3] ∧ ¬SpaceReturned (smallGeometry 4) s t [3] := by
  obtain ⟨s, t, hcreate, hdelete, hchain, hchain'⟩ := exists_deletedFile
  have hm : Ready (smallMount 4) := ready_smallMount (by decide)
  have hg : Sane (smallGeometry 4) := hm.sane
  exact ⟨s, t, hcreate, hdelete, hchain, hg.not_returned hchain'⟩

variable {p : ℕ × ℕ} {name83 : List UInt8} {target : ℕ}

/-- The name is not found any more, and every other name is found and shown as before. -/
structure RemovedOnly (m : Mount) (s t : State) (d : ℕ) (name83 : List UInt8) : Prop where
  gone : Searches m t d name83 none
  others : ∀ name, name ≠ name83 → ∀ r, Searches m t d name r ↔ Searches m s d name r
  shown : (shownEntries m.toGeometry (volume m.toGeometry t) d).filter (·.name != name83) =
    (shownEntries m.toGeometry (volume m.toGeometry s) d).filter (·.name != name83)

/-- The slot behind which nothing is found after a deletion: the first one with the number of the
target, or the very first one if the target is the directory. -/
def cutSlot (g : Geometry) (v : Volume) (d target : ℕ) : Option ℕ :=
  if target = d then some 0
  else firstSlot (calculateMaxDirEntries g) fun i => (slot v d i).cluster == target

/-- The slot of the target is in the first cluster, and only the entry `p` is visible from it on. -/
def NothingBehind (g : Geometry) (v : Volume) (d : ℕ) (k : List ℕ) (target : ℕ) (p : ℕ × ℕ) : Prop :=
  ∃ i, cutSlot g v d target = some i ∧ ∀ q ∈ visiblePlaces g v k, (q.1 = d → i ≤ q.2) → q = p

theorem slot_dropSlot {e j : ℕ} (hj : j < calculateMaxDirEntries g) (hne : e = d → j ≠ i) :
    slot (v.dropSlot g d i) e j = slot v e j := by
  unfold slot Volume.dropSlot
  rw [Volume.setData_data]
  by_cases he : e = d
  · subst he
    rw [Function.update_self, entryAt_clip g hj, entryAt_withFreeEntry_of_ne (hne rfl)]
  · rw [Function.update_of_ne he]

theorem slot_dropSlot_self (hi : i < calculateMaxDirEntries g) :
    (slot (v.dropSlot g d i) d i).name.headD 0 = direntFree := by
  unfold slot Volume.dropSlot
  rw [Volume.setData_data, Function.update_self, entryAt_clip g hi, entryName_head, withFreeEntry,
    assign_same]

theorem removedOnly_of_cut (hm : Ready m) (hheap : ¬HeapFails m)
    (hk : Chain (volume m s).cells d (d :: k)) (hk' : Chain (volume m t).cells d (d :: k))
    (huniq : DistinctNames m (volume m s) (d :: k))
    (hp : p ∈ visiblePlaces m (volume m s) (d :: k))
    (hname : (slot (volume m s) p.1 p.2).name = name83) (hbehind : p.1 = d → i ≤ p.2)
    (hi : i < calculateMaxDirEntries m) (hfree : (slot (volume m t) d i).name.headD 0 = direntFree)
    (hsame : ∀ j < i, slot (volume m t) d j = slot (volume m s) d j) :
    RemovedOnly m s t d name83 ↔
      ∀ q ∈ visiblePlaces m (volume m s) (d :: k), (q.1 = d → i ≤ q.2) → q = p := by
  generalize hv : volume m s = v at hk huniq hp hname hsame
  generalize hv' : volume m t = v' at hk' hfree hsame
  have hnot : d ∉ k := (nodup_cons.mp hk.nodup).1
  have hcut := visiblePlaces_of_free hnot hi hfree hsame
  have hfront : ∀ q ∈ visiblePlaces m v' (d :: k),
      q ∈ visiblePlaces m v (d :: k) ∧ (q.1 = d ∧ q.2 < i) ∧ slot v' q.1 q.2 = slot v q.1 q.2 := by
    intro q hq
    rw [hcut, mem_filter, Bool.and_eq_true, beq_iff_eq, decide_eq_true_iff] at hq
    obtain ⟨hmem, hd, hlt⟩ := hq
    refine ⟨hmem, ⟨hd, hlt⟩, ?_⟩
    rw [hd]
    exact hsame _ hlt
  have hsearch : ∀ name r, Searches m s d name r ↔
      r = (entrySlot m v name (d :: k)).map fun q => (slot v q.1 q.2).found := by
    intro name r
    subst hv
    exact searches_iff hm hheap hk
  have hsearch' : ∀ name r, Searches m t d name r ↔
      r = (entrySlot m v' name (d :: k)).map fun q => (slot v' q.1 q.2).found := by
    intro name r
    subst hv'
    exact searches_iff hm hheap hk'
  constructor
  · intro hremoved q hq hqbehind
    by_contra hne
    have hother : (slot v q.1 q.2).name ≠ name83 := fun heq =>
      hne (huniq q hq p hp (heq.trans hname.symm))
    have hfound := (hsearch _ _).mpr (congrArg (Option.map _) (entrySlot_of_visible huniq hq)).symm
    have hfound' := (hsearch' _ _).mp ((hremoved.others _ hother _).mpr hfound)
    obtain ⟨q', hq', -⟩ := Option.map_eq_some_iff.mp hfound'.symm
    obtain ⟨hvis, hname'⟩ := visible_of_entrySlot hq'
    obtain ⟨hmem, ⟨hd, hlt⟩, hslot⟩ := hfront q' hvis
    rw [hslot] at hname'
    obtain rfl := huniq q' hmem q hq hname'
    exact absurd (hqbehind hd) (by omega)
  · intro honly
    have hnone : ∀ name q, entrySlot m v' name (d :: k) = some q →
        entrySlot m v name (d :: k) = some q ∧ name ≠ name83 := by
      intro name q hq
      obtain ⟨hvis, hname'⟩ := visible_of_entrySlot hq
      obtain ⟨hmem, ⟨hd, hlt⟩, hslot⟩ := hfront q hvis
      rw [hslot] at hname'
      subst hname'
      refine ⟨entrySlot_of_visible huniq hmem, fun heq => ?_⟩
      obtain rfl := huniq q hmem p hp (heq.trans hname.symm)
      exact absurd (hbehind hd) (by omega)
    have huniq' : DistinctNames m v' (d :: k) := by
      intro q hq q' hq' heq
      obtain ⟨hmem, -, hslot⟩ := hfront q hq
      obtain ⟨hmem', -, hslot'⟩ := hfront q' hq'
      rw [hslot, hslot'] at heq
      exact huniq q hmem q' hmem' heq
    have hthere : ∀ name q, name ≠ name83 → entrySlot m v name (d :: k) = some q →
        entrySlot m v' name (d :: k) = some q := by
      intro name q hother hq
      obtain ⟨hmem, hname'⟩ := visible_of_entrySlot hq
      have hlt : q.1 = d ∧ q.2 < i := by
        by_contra hnotfront
        obtain rfl := honly q hmem fun hd => by omega
        exact hother (hname'.symm.trans hname)
      have hvis : q ∈ visiblePlaces m v' (d :: k) := by
        rw [hcut, mem_filter, Bool.and_eq_true, beq_iff_eq, decide_eq_true_iff]
        exact ⟨hmem, hlt⟩
      have hfound := entrySlot_of_visible huniq' hvis
      rwa [(hfront q hvis).2.2, hname'] at hfound
    refine ⟨(hsearch' _ _).mpr ?_, fun name hother r => ?_, ?_⟩
    · cases hq : entrySlot m v' name83 (d :: k) with
      | none => rfl
      | some q => exact absurd rfl (hnone _ q hq).2
    · rw [hsearch, hsearch']
      cases hq : entrySlot m v' name (d :: k) with
      | some q =>
        rw [(hnone _ q hq).1, Option.map_some, Option.map_some,
          (hfront q (visible_of_entrySlot hq).1).2.2]
      | none =>
        cases hq' : entrySlot m v name (d :: k) with
        | none => rw [Option.map_none, Option.map_none]
        | some q =>
          rw [hthere name q hother hq'] at hq
          cases hq
    · have hshown := shownEntries_eq (g := m) (v := v) hnot
      have hshown' := shownEntries_eq (g := m) (v := v') hnot
      rw [hv, hv', hshown, hshown', filter_map, filter_map, filter_filter,
        filter_filter]
      -- what a test keeps that the entry itself does not pass
      have hleft : ∀ test : ℕ × ℕ → Entry → Bool, test p (slot v p.1 p.2) = false →
          ((visiblePlaces m v' (d :: k)).filter fun q => test q (slot v' q.1 q.2)).map
              (fun q => slot v' q.1 q.2) =
            ((visiblePlaces m v (d :: k)).filter fun q => test q (slot v q.1 q.2)).map
              fun q => slot v q.1 q.2 := by
        intro test hfail
        have htest : ((visiblePlaces m v' (d :: k)).filter
            fun q => test q (slot v' q.1 q.2)) =
            (visiblePlaces m v (d :: k)).filter fun q => test q (slot v q.1 q.2) := by
          rw [filter_congr fun q hq => by rw [(hfront q hq).2.2], hcut, filter_filter]
          refine filter_congr fun q hq => ?_
          by_cases hlt : q.1 = d ∧ q.2 < i
          · simp [hlt.1, hlt.2]
          · obtain rfl := honly q hq fun hd => by omega
            rw [hfail, Bool.false_and]
        rw [← htest]
        exact map_congr_left fun q hq => (hfront q (mem_of_mem_filter hq)).2.2
      exact hleft (fun q e => e.name != name83 &&
        (q.1 == d && (e.name != dotName && e.name != dotDotName))) (by simp [hname])

theorem nothingBehind_of_cut (hcut : cutSlot g v d target = some i) :
    NothingBehind g v d k target p ↔ ∀ q ∈ visiblePlaces g v k, (q.1 = d → i ≤ q.2) → q = p := by
  constructor
  · rintro ⟨j, hj, honly⟩
    rw [hcut] at hj
    cases hj
    exact honly
  · intro honly
    exact ⟨i, hcut, honly⟩

theorem slot_wipe (hc : c ∈ k) (hi : i < calculateMaxDirEntries g) :
    (slot (v.wipe g k) c i).name.headD 0 = direntFree := by
  induction k generalizing v with
  | nil => cases hc
  | cons d k ih =>
    show (slot ((v.wipeCluster g d).wipe g k) c i).name.headD 0 = direntFree
    by_cases hmem : c ∈ k
    · exact ih hmem
    · obtain rfl := (mem_cons.mp hc).resolve_right hmem
      rw [slot, wipe_data _ hmem, Volume.wipeCluster, Volume.setData_data, Function.update_self,
        entryAt_clip g hi, entryName_head, allFree, if_pos]
      unfold direntSize
      omega

theorem Deleted.slot_free (hdel : Deleted m v k target d true v') (hc : c ∈ k)
    (hi : i < calculateMaxDirEntries m) :
    (slot v' c i).name.headD 0 = direntFree := by
  cases hdel with
  | missing _ => exact slot_wipe hc hi
  | @removed j _ =>
    by_cases hsame : c = d ∧ i = j
    · obtain ⟨rfl, rfl⟩ := hsame
      exact slot_dropSlot_self hi
    · rw [slot_dropSlot hi (fun hcd hij => hsame ⟨hcd, hij⟩)]
      exact slot_wipe hc hi

theorem removedOnly_iff (hm : Ready m) (hheap : ¬HeapFails m)
    (hk : Chain (volume m s).cells d k)
    (hl : Chain (volume m s).cells h l) (hapart : h ≠ d → ∀ c ∈ k, c ∉ l)
    (huniq : DistinctNames m (volume m s) k) (hp : entrySlot m (volume m s) name83 k = some p)
    (htarget : (slot (volume m s) p.1 p.2).cluster = h)
    (hdel : Deleted m (volume m s) l h d true (volume m t)) :
    RemovedOnly m s t d name83 ↔ NothingBehind m (volume m s) d k h p := by
  have hk' : Chain (volume m t).cells d k := by rwa [hdel.cells.1]
  obtain ⟨hvis, hname⟩ := visible_of_entrySlot hp
  obtain ⟨k, rfl⟩ := hk.exists_cons
  by_cases hself : h = d
  · -- The target is the directory itself, and all its slots are set free.
    have hpos : 0 < calculateMaxDirEntries m := by
      have hbound := (mem_places.mp (mem_visiblePlaces hvis).1).2
      omega
    have hd : d ∈ l := by
      rw [← hself]
      exact hl.self_mem
    have hfree := hdel.slot_free hd hpos
    rw [removedOnly_of_cut hm hheap hk hk' huniq hvis hname (fun _ => Nat.zero_le _) hpos hfree
      (fun j hj => absurd hj (Nat.not_lt_zero j)), nothingBehind_of_cut]
    rw [cutSlot, if_pos hself]
  · have hwiped : ∀ c ∈ d :: k, ((volume m s).wipe m l).data c =
        (volume m s).data c := fun c hc => wipe_data _ (hapart hself c hc)
    have hslots : (fun i => (slot ((volume m s).wipe m l) d i).cluster == h) =
        fun i => (slot (volume m s) d i).cluster == h := by
      funext i
      rw [slot, slot, hwiped d hk.self_mem]
    have hcut : cutSlot m (volume m s) d h =
        firstSlot (calculateMaxDirEntries m)
          fun i => (slot (volume m s) d i).cluster == h := by rw [cutSlot, if_neg hself]
    generalize hv' : volume m t = v' at hdel
    cases hdel with
    | missing hnone =>
      rw [hslots, ← hcut] at hnone
      refine iff_of_false (fun hremoved => ?_) ?_
      · have hfound := (searches_iff hm hheap hk').mp hremoved.gone
        rw [hv', entrySlot_congr hwiped, hp] at hfound
        cases hfound
      · rintro ⟨i, hfst, -⟩
        rw [hnone] at hfst
        cases hfst
    | @removed i hfst =>
      rw [hslots] at hfst
      obtain ⟨hi, -, hpre⟩ := firstSlot_eq_some.mp hfst
      have hbehind : p.1 = d → i ≤ p.2 := by
        rintro rfl
        by_contra hlt
        have hother := hpre p.2 (by omega)
        rw [htarget, beq_self_eq_true] at hother
        cases hother
      have hfree : (slot (volume m t) d i).name.headD 0 = direntFree := by
        rw [hv']
        exact slot_dropSlot_self hi
      have hsame : ∀ j < i, slot (volume m t) d j = slot (volume m s) d j := by
        intro j hj
        rw [hv', slot_dropSlot (by omega) (by omega), slot, slot, hwiped d hk.self_mem]
      rw [removedOnly_of_cut hm hheap hk hk' huniq hvis hname hbehind hi hfree hsame,
        nothingBehind_of_cut]
      rw [hcut, hfst]

end Taavi.Fat
