import Taavi.Fat.Walks

/-!
# Changing and deleting entries

`fat32_update_dirent_size` and `fat32_delete_dirent` look for an entry by its cluster number, in any
slot. One sets a size, the other frees slots, and neither changes the table.
-/

namespace Taavi.Fat

open Lib

variable {m : Mount} {g : Geometry} {s t : State} {v v' : Volume} {live : List ℕ} {c i : ℕ}
  {k : List ℕ} {F : ℕ → Prop}

def Volume.setSize (g : Geometry) (v : Volume) (c i size : ℕ) : Volume :=
  v.setData c (clip g ((v.data c).write (i * direntSize + 28) 4 size))

theorem slot_setSize {e j size : ℕ} (hj : j < calculateMaxDirEntries g) :
    slot (v.setSize g c i size) e j =
      if e = c ∧ j = i then { slot v c i with size := size % 2 ^ 32 } else slot v e j := by
  unfold slot Volume.setSize
  rw [Volume.setData_data]
  by_cases hec : e = c
  · subst hec
    rw [Function.update_self, entryAt_clip g hj, entryAt_write_size]
    simp only [true_and]
  · rw [Function.update_of_ne hec, if_neg fun h => hec h.1]

theorem findSlot_setSize {size : ℕ} {p : Entry → Bool} (hp : ∀ e n, p { e with size := n } = p e) :
    findSlot g (v.setSize g c i size) p k = findSlot g v p k := by
  induction k with
  | nil => rfl
  | cons e k ih =>
    have hslots : firstSlot (calculateMaxDirEntries g)
        (fun j => p (slot (v.setSize g c i size) e j)) =
          firstSlot (calculateMaxDirEntries g) fun j => p (slot v e j) := by
      refine firstSlot_congr fun j hj => ?_
      rw [slot_setSize hj]
      split_ifs with hji
      · rw [hp, hji.1, hji.2]
      · rfl
    rw [findSlot, findSlot, hslots, ih]

theorem Consistent.setSize (hv : Consistent g v) (c i size : ℕ) :
    Progress g F v (v.setSize g c i size) := by
  refine hv.weaken fun j hj hlive => ?_
  have hsame : (slot (v.setSize g c i size) c j).name = (slot v c j).name ∧
      (slot (v.setSize g c i size) c j).attr = (slot v c j).attr ∧
      (slot (v.setSize g c i size) c j).cluster = (slot v c j).cluster := by
    rw [slot_setSize hj]
    split_ifs with hji
    · rw [hji.2]
      exact ⟨rfl, rfl, rfl⟩
    · exact ⟨rfl, rfl, rfl⟩
  have hlive' : (slot (v.setSize g c i size) c j).Live := by
    rwa [slot, Volume.setSize, Volume.setData_data, Function.update_self]
  refine ⟨?_, hsame.2.2, ?_⟩
  · rwa [Entry.Live, Entry.unused, hsame.1] at hlive'
  · intro (hdir : (slot (v.setSize g c i size) c j).IsDir)
    rwa [Entry.IsDir, hsame.2.1] at hdir

/-- What `fat32_update_dirent_size` does: it sets the size of the first entry with the cluster. -/
inductive Resized (m : Mount) (v : Volume) (k : List ℕ) (file size : ℕ) : Bool → Volume → Prop
  | failed : HeapFails m → Resized m v k file size false v
  | missing : findSlot m v (fun e => e.cluster == file) k = none →
      Resized m v k file size false v
  | found {c i : ℕ} : findSlot m v (fun e => e.cluster == file) k = some (c, i) →
      Resized m v k file size true (v.setSize m c i size)

theorem Resized.progress {file size : ℕ} {r : Bool} (h : Resized m v k file size r v')
    (hv : Consistent m v) : Progress m F v v' := by
  cases h with
  | failed | missing => exact .refl hv
  | found => exact hv.setSize ..

theorem Resized.cons {file size : ℕ} {r : Bool} (hnone : firstSlot (calculateMaxDirEntries m)
      (fun i => (slot v c i).cluster == file) = none)
    (h : Resized m v k file size r v') : Resized m v (c :: k) file size r v' := by
  have hskip : findSlot m v (fun e => e.cluster == file) (c :: k) =
      findSlot m v (fun e => e.cluster == file) k := by
    rw [findSlot, hnone]
  cases h with
  | failed hfail => exact .failed hfail
  | missing hmissing => exact .missing (hskip.trans hmissing)
  | found hfound => exact .found (hskip.trans hfound)

theorem updateDirentSize_spec (hm : Ready m) {start file size fuel : ℕ} (hvol : volume m s = v)
    (hk : Chain v.cells (if start = 0 then m.rootCluster else start) k)
    (hfuel : k.length + 1 < fuel) :
    Ends (updateDirentSize m fuel start file size) s fun r t =>
      ∃ v', Effect m s t v' s.live ∧ Resized m v k file size r v' := by
  subst hvol
  refine (allocateBuffer_spec m s).bind ?_
  rintro _ t (⟨rfl, hfail, ht⟩ | ⟨block, rfl, ht⟩)
  · exact ends_pure ⟨_, ht, .failed hfail⟩
  · let v := volume m s
    -- what is found in the rest of the chain is what is found in all of it
    refine ends_walk
      (fun c k' t => Effect m s t v (block :: s.live) ∧ Chain v.cells c k' ∧
        ∀ r v', Resized m v k' file size r v' → Resized m v k file size r v')
      (fun t => HeapFails m ∧ Effect m s t v (block :: s.live)) ?_ ?_
      ⟨ht, hk, fun _ _ => id⟩ hfuel
    · rintro c k' t ⟨ht, hk', hrest⟩
      have hc : InRange m c := ht.inRange hk'.used
      unfold updateCluster
      refine (ht.readCluster hm hc).bind ?_
      rintro _ u ⟨rfl, hu⟩
      have hslots : firstSlot (clusterSize m / direntSize)
          (fun i => entryCluster (v.data c) i == file) =
            firstSlot (calculateMaxDirEntries m) (fun i => (slot v c i).cluster == file) := rfl
      simp only [hslots]
      cases hfst : firstSlot (calculateMaxDirEntries m)
          (fun i => (slot v c i).cluster == file) with
      | some i =>
        refine (hu.writeCluster hm hc _).bind ?_
        rintro _ w ⟨rfl, hw⟩
        refine hw.ends_kfree fun x hx => .inr (.inr ⟨true, rfl, _, hx, hrest _ _ ?_⟩)
        obtain ⟨k', rfl⟩ := hk'.exists_cons
        exact .found (by rw [findSlot, hfst])
      | none =>
        refine hu.ends_next hm hk' ?_ ?_ ?_
        · intro hlast w hw
          refine hw.ends_kfree fun x hx => .inr (.inr ⟨false, rfl, _, hx, hrest _ _ ?_⟩)
          rw [hk'.unique (.last hlast)]
          exact .missing (by rw [findSlot, hfst]; rfl)
        · intro d k'' hcons hd w hw
          refine .inr (.inl ⟨d, k'', rfl, hcons, hw, hd, fun r v' hr => hrest r v' ?_⟩)
          rw [hcons]
          exact hr.cons hfst
        · intro hfail w hw
          exact .inl ⟨rfl, hfail, hw⟩
    · rintro t ⟨hfail, ht⟩
      exact ht.ends_kfree fun u hu => ⟨false, rfl, _, hu, .failed hfail⟩

variable {target parent fuel : ℕ}

theorem Consistent.setFree (hv : Consistent g v) (c : ℕ) (buf : Memory) :
    Progress g F v (v.setData c (clip g (allFree (calculateMaxDirEntries g) buf))) := by
  refine hv.weaken fun j hj hlive => ?_
  rw [entryAt_clip g hj] at hlive
  exact absurd hlive.1 (by rw [entryAt_allFree hj]; decide)

theorem Consistent.freeSlot (hv : Consistent g v) (c i : ℕ) :
    Progress g F v (v.setData c (clip g (withFreeEntry (v.data c) i))) := by
  refine hv.weaken fun j hj hlive => ?_
  have hentry : slot (v.setData c (clip g (withFreeEntry (v.data c) i))) c j =
      entryAt (withFreeEntry (v.data c) i) j := by
    rw [slot, Volume.setData_data, Function.update_self, entryAt_clip g hj]
  rw [entryAt_clip g hj] at hlive
  by_cases hji : j = i
  · subst hji
    exact absurd hlive.1 (by rw [entryAt_withFreeEntry_self]; decide)
  · rw [entryAt_withFreeEntry_of_ne hji] at hentry hlive
    exact ⟨hlive, congrArg Entry.cluster hentry, fun hdir => by rwa [hentry] at hdir⟩

def Volume.wipeCluster (g : Geometry) (v : Volume) (c : ℕ) : Volume :=
  v.setData c (clip g (allFree (calculateMaxDirEntries g) (v.data c)))

/-- The volume with every slot of some clusters set free. -/
def Volume.wipe (g : Geometry) (v : Volume) (k : List ℕ) : Volume := k.foldl (Volume.wipeCluster g) v

def Volume.dropSlot (g : Geometry) (v : Volume) (c i : ℕ) : Volume :=
  v.setData c (clip g (withFreeEntry (v.data c) i))

theorem wipe_append (g : Geometry) (v : Volume) (k : List ℕ) (c : ℕ) :
    v.wipe g (k ++ [c]) = (v.wipe g k).wipeCluster g c := by
  rw [Volume.wipe, List.foldl_append]
  rfl

theorem wipe_cells (g : Geometry) (v : Volume) (k : List ℕ) :
    (v.wipe g k).cells = v.cells ∧ (v.wipe g k).hint = v.hint := by
  induction k generalizing v with
  | nil => exact ⟨rfl, rfl⟩
  | cons c k ih => exact ih (v.wipeCluster g c)

theorem wipe_data (v : Volume) (hc : c ∉ k) : (v.wipe g k).data c = v.data c := by
  induction k generalizing v with
  | nil => rfl
  | cons d k ih =>
    rw [List.mem_cons, not_or] at hc
    obtain ⟨hne, hnot⟩ := hc
    show ((v.wipeCluster g d).wipe g k).data c = v.data c
    rw [ih _ hnot, Volume.wipeCluster, Volume.setData_data, Function.update_of_ne hne]

theorem Consistent.wipe (hv : Consistent g v) (k : List ℕ) : Progress g F v (v.wipe g k) := by
  induction k generalizing v with
  | nil => exact .refl hv
  | cons c k ih =>
    have hfst : Progress g F v (v.wipeCluster g c) := hv.setFree c (v.data c)
    exact hfst.trans (ih hfst.consistent) fun _ => .inl

/-- The clusters of the target are wiped, and the first slot of the parent with its number is freed. -/
inductive Deleted (m : Mount) (v : Volume) (k : List ℕ) (target parent : ℕ) : Bool → Volume → Prop
  | failed {l : List ℕ} : HeapFails m → l <+: k →
      Deleted m v k target parent false (v.wipe m l)
  | missing : firstSlot (calculateMaxDirEntries m)
        (fun i => (slot (v.wipe m k) parent i).cluster == target) = none →
      Deleted m v k target parent true (v.wipe m k)
  | removed {i : ℕ} : firstSlot (calculateMaxDirEntries m)
        (fun i => (slot (v.wipe m k) parent i).cluster == target) = some i →
      Deleted m v k target parent true ((v.wipe m k).dropSlot m parent i)

theorem Deleted.cells {r : Bool} (h : Deleted m v k target parent r v') :
    v'.cells = v.cells ∧ v'.hint = v.hint := by
  cases h with
  | failed _ _ => exact wipe_cells _ v _
  | missing _ | removed _ => exact wipe_cells _ v k

theorem Deleted.progress {r : Bool} (h : Deleted m v k target parent r v')
    (hv : Consistent m v) : Progress m F v v' := by
  cases h with
  | failed _ _ => exact hv.wipe _
  | missing _ => exact hv.wipe k
  | removed _ =>
    have hwiped : Progress m F v (v.wipe m k) := hv.wipe k
    exact hwiped.trans (hwiped.consistent.freeSlot parent _) fun _ => .inl

theorem deleteDirent_deletes (hm : Ready m)
    (hvol : volume m s = v) (hk : Chain v.cells target k)
    (hpar : InRange m parent) (hfuel : k.length + 1 < fuel) :
    Ends (deleteDirent m fuel target parent) s fun r t =>
      ∃ v', Effect m s t v' s.live ∧ Deleted m v k target parent r v' := by
  subst hvol
  refine (allocateBuffer_spec m s).bind ?_
  rintro _ t (⟨rfl, hfail, ht⟩ | ⟨block, rfl, ht⟩)
  · exact ends_pure ⟨_, ht, .failed hfail (List.nil_prefix ..)⟩
  · generalize hv : volume m s = v at hk ht ⊢
    -- the walk leaves the buffer to the second part, or frees it when it fails
    have hwalk : Ends (iterate (deleteCluster m block) fuel target) t fun r u =>
        (r = true ∧ Effect m s u (v.wipe m k) (block :: s.live)) ∨
        (r = false ∧ HeapFails m ∧ ∃ l, l <+: k ∧ Effect m s u (v.wipe m l) s.live) := by
      refine ends_walk
        (fun c rest t => Chain v.cells c rest ∧ ∃ l, k = l ++ rest ∧
          Effect m s t (v.wipe m l) (block :: s.live))
        (fun t => HeapFails m ∧ ∃ l, l <+: k ∧ Effect m s t (v.wipe m l) (block :: s.live))
        ?_ ?_ ⟨hk, [], rfl, ht⟩ hfuel
      · rintro c rest t ⟨hrest, l, hl, ht⟩
        obtain ⟨behind, hbehind⟩ := hrest.exists_cons
        have hprefix : l ++ [c] <+: k := ⟨behind, by rw [hl, hbehind, List.append_assoc]; rfl⟩
        have hcells := (wipe_cells m v l).1
        rw [← hcells] at hrest
        have hc : InRange m c := ht.inRange hrest.used
        unfold deleteCluster
        refine (ht.readCluster hm hc).bind ?_
        rintro _ u ⟨rfl, hu⟩
        refine (hu.writeCluster hm hc _).bind ?_
        rintro _ w ⟨rfl, hw⟩
        have hwiped := wipe_append m v l c
        refine hw.ends_next hm hrest ?_ ?_ ?_
        · intro hlast x hx
          have hone : rest = [c] := hrest.unique (.last hlast)
          rw [hone] at hl
          refine ends_pure (.inr (.inr ⟨true, rfl, .inl ⟨rfl, ?_⟩⟩))
          rw [hl, hwiped]
          exact hx
        · intro d rest' hcons hd x hx
          refine .inr (.inl ⟨d, rest', rfl, hcons, ?_, l ++ [c], ?_, ?_⟩)
          · rwa [Volume.setData_cells, hcells] at hd
          · rw [hl, hcons, List.append_assoc]
            rfl
          · rw [hwiped]
            exact hx
        · intro hfail x hx
          refine .inl ⟨rfl, hfail, l ++ [c], hprefix, ?_⟩
          rw [hwiped]
          exact hx
      · rintro t ⟨hfail, l, hl, ht⟩
        exact ht.ends_kfree fun u hu => ⟨false, rfl, .inr ⟨rfl, hfail, l, hl, hu⟩⟩
    refine hwalk.bind ?_
    rintro _ u (⟨rfl, hu⟩ | ⟨rfl, hfail, l, hl, hu⟩)
    · rw [if_pos rfl]
      refine (hu.readCluster hm hpar).bind ?_
      rintro _ w ⟨rfl, hw⟩
      cases hfst : firstSlot (calculateMaxDirEntries m)
          (fun i => entryCluster ((v.wipe m k).data parent) i == target) with
      | none =>
        simp only [hfst]
        exact hw.ends_kfree fun x hx => ⟨_, hx, .missing hfst⟩
      | some i =>
        simp only [hfst]
        refine (hw.writeCluster hm hpar _).bind ?_
        rintro _ x ⟨rfl, hx⟩
        exact hx.ends_kfree fun y hy => ⟨_, hy, .removed hfst⟩
    · exact ends_pure ⟨_, hu, .failed hfail hl⟩

theorem deleteDirent_spec (hm : Ready m)
    (hvol : volume m s = v) (hv : Consistent m v)
    (hk : Chain v.cells target k) (hpar : InRange m parent) (hfuel : k.length + 1 < fuel) :
    Ends (deleteDirent m fuel target parent) s fun _ t =>
      ∃ v', Effect m s t v' s.live ∧ Progress m (fun _ => False) v v' ∧
        v'.cells = v.cells ∧ v'.hint = v.hint := by
  refine (deleteDirent_deletes hm hvol hk hpar hfuel).imp ?_
  rintro r t ⟨v', ht, hdel⟩
  exact ⟨v', ht, hdel.progress hv, hdel.cells⟩

end Taavi.Fat
