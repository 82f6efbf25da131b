import Taavi.Fat.Deletion
import Taavi.Fs.WorkingDirs

/-!
# Deletions on request

A DELETE request passes two clusters on to `fat32_delete_dirent` and not the name. The first slot
with the number is set free, with the mark that ends a directory: the entries behind it are lost.
-/

namespace Taavi.Fs

open Lib Fat

variable {m : Mount} {s t : State} {work : Work} {r : Reply} {req : Request} {path : List UInt8}
  {fuel : ℕ}

def Work.Deletes (work : Work) (path : List UInt8) : Prop :=
  work.req.requestType = .delete ∧ pathOf work.req = some path

/-- `delete` finds nothing and changes nothing, or it deletes what the path stands for. -/
inductive Discards (m : Mount) (v : Volume) (start : ℕ) (path : List UInt8) : Bool → Volume → Prop
  | absent : HeapFails m ∨ Resolves m v start (skipSlash path) none →
      Discards m v start path false v
  | present {found : Resolved} {l : List ℕ} {ok : Bool} {v' : Volume} :
      Resolves m v start (skipSlash path) (some found) →
      Chain v.cells found.fileCluster l →
      Deleted m v l found.fileCluster found.dirCluster ok v' → Discards m v start path ok v'

theorem delete_spec (hm : Ready m) (hv : Consistent m (volume m s.fat))
    (hpath : pathOf req = some path) (hstart : IsDirectory m (volume m s.fat)
      (startingCluster m s req.callerPid))
    (hfuel : m.maximumClusterSize + 1 < fuel) :
    Ends (delete m fuel req) s fun ok t => Discards m (volume m s.fat)
      (startingCluster m s req.callerPid) path ok (volume m t.fat) := by
  refine (ends_deref hpath s).bind ?_
  rintro _ _ ⟨rfl, rfl⟩
  refine (ends_get s).bind ?_
  rintro _ _ ⟨rfl, rfl⟩
  rename_i s
  refine (ends_onVolume (findCluster_spec hm rfl hv.wellFormed hstart hfuel path)).bind ?_
  rintro found _ ⟨fat, rfl, hfat, hfound⟩
  have hvol := hfat.volume
  rcases hfound with ⟨rfl, hfail⟩ | hfound
  · refine ends_pure ?_
    show Discards m _ _ _ false (volume m fat)
    rw [hvol]
    exact .absent (.inl hfail)
  cases found with
  | none =>
    refine ends_pure ?_
    show Discards m _ _ _ false (volume m fat)
    rw [hvol]
    exact .absent (.inr hfound)
  | some found =>
    obtain ⟨hdir, c, i, hlist, hclus, -⟩ := hfound.listed hstart
    have hhead := hv.entries _ c i hdir hlist
    rw [hclus] at hhead
    obtain ⟨l, hl⟩ := hv.cells.ends _ hhead.used
    have hpar := inRange_of_used (hv.head hdir).used
    have hlen : l.length + 1 < fuel := by
      have hle := length_le_of_chain hl
      omega
    refine (ends_onVolume (deleteDirent_deletes hm hvol hl hpar hlen)).imp ?_
    rintro ok _ ⟨fat', rfl, v', hfat', hdel⟩
    show Discards m _ _ _ ok (volume m fat')
    rw [hfat'.volume]
    exact .present hfound hl hdel

theorem grows_delete (m : Mount) (req : Request) : Grows fun n => delete m n req := by
  refine (grows_const _).bind fun path => (grows_const _).bind fun s => ?_
  refine (grows_onVolume (grows_findLoop m _ _ _)).bind fun found => ?_
  cases found with
  | none => exact grows_const _
  | some found => exact grows_onVolume (grows_deleteDirent m _ _)

theorem Serves.discards (hm : Ready m) (hv : Consistent m (volume m s.fat))
    (hwork : work.Deletes path) (hstart : IsDirectory m (volume m s.fat)
      (startingCluster m s work.req.callerPid)) (h : Serves m s work r t) :
    Discards m (volume m s.fat) (startingCluster m s work.req.callerPid) path r.ok
      (volume m t.fat) := by
  obtain ⟨fuel, hserve⟩ := h
  obtain ⟨ok, u, hrun, hdiscards⟩ := delete_spec hm hv hwork.2 hstart
    (Nat.lt_succ_self (m.maximumClusterSize + 1))
  have hgrows : Grows fun n => fsHandleRequest m n work.req work.given := by
    simp only [fsHandleRequest, hwork.1]
    exact (grows_delete m work.req).map
  have hserve' : fsHandleRequest m (m.maximumClusterSize + 2) work.req work.given s =
      some (reply work.req ok, u) := by
    simp only [fsHandleRequest, hwork.1]
    show (delete m _ work.req s).bind _ = _
    rw [hrun]
    rfl
  obtain ⟨rfl, rfl⟩ := Prod.mk.inj (hgrows.agree hserve hserve')
  exact hdiscards

def deleteWork (pid : ℕ) (path : List UInt8) : Work where
  req := { Request.zero with requestType := .delete, callerPid := pid, buf := some path }
  given := ⟨fun _ => 0, none⟩

theorem exists_created (name : List UInt8) {fat : Fat.State} {p : Fat.State → Bool}
    (hv : Consistent (smallGeometry 4) (volume (smallGeometry 4) fat))
    (hroom : 0 < room (smallGeometry 4) (volume (smallGeometry 4) fat))
    (h : (createDirent (smallMount 4) 2 name attrArchive fat).any (fun r => p r.2) = true) :
    ∃ fat', Consistent (smallGeometry 4) (volume (smallGeometry 4) fat') ∧ p fat' = true := by
  obtain ⟨⟨ok, fat'⟩, hrun, hp⟩ := Option.any_eq_true _ _ |>.mp h
  have hfits : (Op.createDirent 2 name attrArchive).Fits (smallGeometry 4)
      (volume (smallGeometry 4) fat) := ⟨.root, hroom⟩
  have hstep : Fat.Step (smallMount 4) fat (.createDirent 2 name attrArchive) fat' := by
    refine ⟨0, .status ok, ?_⟩
    show (createDirent (smallMount 4) 2 name attrArchive fat).bind _ = _
    rw [hrun]
    rfl
  exact ⟨fat', (hstep.kept (ready_smallMount (by decide)) hv hfits).1.consistent, hp⟩

/-- What is seen of a root directory with the file `A` in its first slot. -/
@[mk_iff] structure HasFirst (v : Volume) (shown : List (ℕ × ℕ)) : Prop where
  last : v.cells 2 = .last
  visible : visiblePlaces (smallGeometry 4) v [2] = shown
  names : DistinctNames (smallGeometry 4) v [2]
  entry : entrySlot (smallGeometry 4) v (format83 [65]) [2] = some (2, 0)
  cut : cutSlot (smallGeometry 4) v 2 (slot v 2 0).cluster = some 0

instance (g : Geometry) (v : Volume) (k : List ℕ) : Decidable (DistinctNames g v k) :=
  List.decidableBAll ..

instance (v : Volume) (shown : List (ℕ × ℕ)) : Decidable (HasFirst v shown) :=
  decidable_of_iff' _ (hasFirst_iff v shown)

theorem reaches_first (v : Volume) :
    Reaches (smallGeometry 4) v 2 (skipSlash [65]) 2 (format83 [65]) :=
  .last (by decide) (by decide)

end Taavi.Fs
