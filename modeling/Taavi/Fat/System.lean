import Taavi.Fat.Creation
import Taavi.Fat.Updates
import Taavi.Fat.Writing
import Taavi.Lib.Runs

/-!
# Sequences of operations on a volume

The operations of the file system as steps of a mounted volume. On a consistent volume with enough
free clusters each of them returns, whatever the heap does, and keeps the volume consistent.
-/

namespace Taavi.Fat

open Lib

/-- An operation of the file system. -/
inductive Op
  | createDirent (directory : ℕ) (name : List UInt8) (attributes : UInt8)
  | mkdirp (parent : ℕ) (path : List UInt8)
  | writeFile (buf : Memory) (size : ℕ)
  | writeFileAtOffset (first offset : ℕ) (buf : Memory) (size : ℕ)
  | updateDirentSize (start file size : ℕ)
  | deleteDirent (target parent : ℕ)

/-- What an operation returns. -/
inductive Outcome
  | status (ok : Bool)
  | cluster (c : ℕ)
  deriving DecidableEq, Repr

def Op.run (m : Mount) (fuel : ℕ) : Op → Action Outcome
  | .createDirent directory name attributes =>
    Outcome.status <$> Fat.createDirent m directory name attributes
  | .mkdirp parent path => Outcome.status <$> Fat.mkdirp m parent path
  | .writeFile buf size => Outcome.cluster <$> Fat.writeFile m buf size
  | .writeFileAtOffset first offset buf size =>
    Outcome.status <$> Fat.writeFileAtOffset m fuel first offset buf size
  | .updateDirentSize start file size =>
    Outcome.status <$> Fat.updateDirentSize m fuel start file size
  | .deleteDirent target parent => Outcome.status <$> Fat.deleteDirent m fuel target parent

/-- An operation takes the volume from a state to another one. -/
def Step (m : Mount) (s : State) (op : Op) (t : State) : Prop :=
  ∃ fuel out, op.run m fuel s = some (out, t)

/-- The operation is used on what there is, and there are enough free clusters for it. -/
def Op.Fits (g : Geometry) (v : Volume) : Op → Prop
  | .createDirent directory _ _ => IsDirectory g v directory ∧ 0 < room g v
  | .mkdirp parent path =>
    IsDirectory g v parent ∧ ∃ n, Enters g v parent path n ∧ n ≤ room g v
  | .writeFile _ size => u32 (size + (clusterSize g - 1)) / clusterSize g ≤ room g v
  | .writeFileAtOffset first offset _ size => IsFile g v first ∧
    ∃ l, Chain v.cells first l ∧ offset + size ≤ (l.length + room g v) * clusterSize g
  | .updateDirentSize start _ _ => start = 0 ∨ Used v.cells start
  | .deleteDirent target parent => Used v.cells target ∧ InRange g parent

/-- The file that an operation may make longer. -/
def Op.worked : Op → Option ℕ
  | .writeFileAtOffset first _ _ _ => some first
  | _ => none

variable {m : Mount} {g : Geometry} {s t : State} {v v' : Volume} {op : Op}

theorem grows_updateDirentSize (m : Mount) (start file size : ℕ) :
    Grows fun n => updateDirentSize m n start file size :=
  grows_option (grows_const _) fun block => grows_iterate (updateCluster m block file size) _

theorem grows_writeFileAtOffset (m : Mount) (first offset : ℕ) (buf : Memory) (size : ℕ) :
    Grows fun n => writeFileAtOffset m n first offset buf size :=
  grows_option (grows_const _) fun _ =>
    grows_option (grows_const _) fun block => grows_iterate (writePass m block buf size) _

theorem grows_deleteDirent (m : Mount) (target parent : ℕ) :
    Grows fun n => deleteDirent m n target parent :=
  grows_option (grows_const _) fun block =>
    (grows_iterate (deleteCluster m block) target).bind fun _ => grows_const _

theorem Op.grows (m : Mount) (op : Op) : Grows fun n => op.run m n := by
  cases op with
  | createDirent | mkdirp | writeFile => exact grows_const _
  | writeFileAtOffset first offset buf size =>
    exact (grows_writeFileAtOffset m first offset buf size).map
  | updateDirentSize start file size => exact (grows_updateDirentSize m start file size).map
  | deleteDirent target parent => exact (grows_deleteDirent m target parent).map

/-- The volume stays consistent, only one file becomes longer, and only its sectors are written. -/
def Kept (g : Geometry) (s : State) (op : Op) (t : State) : Prop :=
  Progress g (fun c => ∃ h, op.worked = some h ∧ OnChain (volume g s) h c) (volume g s)
      (volume g t) ∧
    ∀ x ∈ t.written, x ∈ s.written ∨ Inside g x

theorem kept_of_effect {F : ℕ → Prop} {live : List ℕ} (ht : Effect g s t v' live)
    (hp : Progress g F (volume g s) v')
    (hF : ∀ c, F c → ∃ h, op.worked = some h ∧ OnChain (volume g s) h c) : Kept g s op t := by
  obtain rfl := ht.volume
  exact ⟨hp.mono hF, ht.written⟩

theorem Op.ends (hm : Ready m) (hv : Consistent m (volume m s)) (hop : op.Fits m (volume m s)) :
    ∃ fuel, Ends (op.run m fuel) s fun _ t => Kept m s op t := by
  cases op with
  | createDirent directory name attributes =>
    obtain ⟨hd, hroom⟩ := hop
    obtain ⟨f, hfree⟩ := exists_nextFree hroom
    refine ⟨0, (createDirent_spec hm (inRange_of_used (hv.head hd).used) rfl hfree name
      attributes).map ?_⟩
    rintro r t ⟨v', ht, hcreated⟩
    exact kept_of_effect ht (hcreated.progress hm hv fun _ => False) fun _ => False.elim
  | mkdirp parent path =>
    obtain ⟨hd, n, henters, hroom⟩ := hop
    refine ⟨0, (mkdirp_spec hm rfl hv hd henters hroom).map ?_⟩
    rintro r t ⟨v', ht, hmade⟩
    exact kept_of_effect ht (hmade.progress hm hv fun _ => False) fun _ => False.elim
  | writeFile buf size =>
    refine ⟨0, (writeFile_spec hm rfl hv hop).map ?_⟩
    rintro r t ⟨v', ht, hp, -⟩
    exact kept_of_effect ht hp fun _ => False.elim
  | writeFileAtOffset first offset buf size =>
    obtain ⟨hfile, l, hl, hspace⟩ := hop
    refine ⟨size + 1, (writeFileAtOffset_spec hm rfl hv hfile hl hspace (Nat.lt_succ_self _)).map
      ?_⟩
    rintro r t ⟨v', live, ht, hp, -⟩
    exact kept_of_effect ht hp fun c hc => ⟨first, rfl, hc⟩
  | updateDirentSize start file size =>
    have hused : Used (volume m s).cells (if start = 0 then m.rootCluster else start) := by
      split_ifs with hzero
      · exact hv.root.used
      · exact hop.resolve_left hzero
    obtain ⟨k, hk⟩ := hv.cells.ends _ hused
    refine ⟨k.length + 2, (updateDirentSize_spec hm rfl hk (Nat.lt_succ_self _)).map ?_⟩
    rintro r t ⟨v', ht, hresized⟩
    have hp : Progress m (fun _ => False) (volume m s) v' := hresized.progress hv
    exact kept_of_effect ht hp fun _ => False.elim
  | deleteDirent target parent =>
    obtain ⟨hused, hpar⟩ := hop
    obtain ⟨k, hk⟩ := hv.cells.ends target hused
    refine ⟨k.length + 2, (deleteDirent_spec hm rfl hv hk hpar (Nat.lt_succ_self _)).map ?_⟩
    rintro r t ⟨v', ht, hp, -⟩
    exact kept_of_effect ht hp fun _ => False.elim

theorem Step.kept (hm : Ready m) (hv : Consistent m (volume m s))
    (hop : op.Fits m (volume m s)) (hstep : Step m s op t) :
    Kept m s op t := by
  obtain ⟨fuel, out, hrun⟩ := hstep
  obtain ⟨fuel', out', t', hrun', hkept⟩ := Op.ends hm hv hop
  obtain ⟨-, rfl⟩ := Prod.mk.inj ((op.grows m).agree hrun hrun')
  exact hkept

abbrev FittingStep (m : Mount) : State → Op → State → Prop :=
  Guarded (fun s op => op.Fits m.toGeometry (volume m.toGeometry s)) (Step m)

theorem consistent_of_run (hm : Ready m) {ops : List Op} (hrun : Run (FittingStep m) s ops t)
    (hv : Consistent m (volume m s)) :
    Consistent m (volume m t) := by
  have hkeep : ∀ s op t, Consistent m (volume m s) → FittingStep m s op t →
      Consistent m (volume m t) := by
    rintro s op t hv ⟨hop, hstep⟩
    exact (hstep.kept hm hv hop).1.consistent
  exact Run.invariant hkeep hrun hv

section

variable {clusters : ℕ}

/-- A volume with tables of one sector, clusters of one sector and some number of them. -/
def smallGeometry (clusters : ℕ) : Geometry where
  fatStart := 1
  dataStart := 3
  rootCluster := 2
  sectorsPerCluster := 1
  bytesPerSector := 512
  fatCount := 2
  sectorsPerFat := 1
  maximumClusterSize := clusters + 2

/-- The volume on a disk and with a heap that do not fail. -/
def smallMount (clusters : ℕ) : Mount where
  toGeometry := smallGeometry clusters
  diskFails _ := false
  heapFails _ := false

/-- A disk whose tables have the given entries and whose other sectors are empty. -/
def diskOf (entries : ℕ → ℕ) : ℕ → Memory := fun lba x =>
  if lba = 1 ∨ lba = 2 then UInt8.ofNat (entries (x / 4) / 256 ^ (x % 4) % 256) else 0

theorem diskOf_of_le (entries : ℕ → ℕ) {lba : ℕ} (hlba : 3 ≤ lba) (x : ℕ) :
    diskOf entries lba x = 0 := if_neg (by omega)

def mounted (disk : ℕ → Memory) : State where
  disk := disk
  lastAllocatedCluster := 0
  accesses := 0
  mallocs := 0
  live := []
  written := []

def emptyStart : State := mounted (diskOf fun c => if c = 2 then clusterEoc else 0)

theorem heap_smallMount (n : ℕ) : ¬HeapFails (smallMount n) := fun ⟨_, hn⟩ => Bool.false_ne_true hn

theorem ready_smallMount (hclusters : clusters < 127) : Ready (smallMount clusters) := by
  refine ⟨⟨rfl, rfl, one_pos, one_pos, rfl, ?_, ?_, ?_⟩, fun _ => rfl⟩
  all_goals
    simp only [smallMount, smallGeometry, entriesPerSector_eq]
    omega

theorem fatEntry_diskOf {c : ℕ} (entries : ℕ → ℕ) (hc : c < 128) :
    fatEntry (smallGeometry clusters) (mounted (diskOf entries)) c =
      entries c % 2 ^ 32 &&& clusterMask := by
  have hbytes : Memory.AgreeOn (Memory.write (diskOf entries 1) (c * 4) 4 (entries c))
      (diskOf entries 1) (c * 4) (c * 4 + 4) := by
    intro x hlo hhi
    have hword : x / 4 = c := by omega
    have hbyte : x % 4 = x - c * 4 := by omega
    rw [Memory.write, if_pos ⟨hlo, hhi⟩, diskOf, if_pos (.inl rfl), hword, hbyte]
  have hsec : (mounted (diskOf entries)).disk
      ((smallGeometry clusters).fatStart + c / entriesPerSector) = diskOf entries 1 := by
    rw [entriesPerSector_eq, Nat.div_eq_of_lt hc]
    rfl
  rw [fatEntry, hsec, entriesPerSector_eq, Nat.mod_eq_of_lt hc, Memory.read_congr hbytes,
    Memory.read_write_same]
  norm_num

theorem cells_emptyStart (hpos : 0 < clusters) :
    (volume (smallGeometry clusters) emptyStart).cells 2 = .last := by
  have hroot : InRange (smallGeometry clusters) 2 := ⟨le_rfl, Nat.lt_add_of_pos_left hpos⟩
  have hentry : fatEntry (smallGeometry clusters) emptyStart 2 =
      clusterEoc % 2 ^ 32 &&& clusterMask := fatEntry_diskOf _ (by decide)
  rw [cells_eq hroot, hentry]
  exact cellOf_clusterEoc

theorem data_emptyStart (clusters : ℕ) :
    (volume (smallGeometry clusters) emptyStart).data 2 = fun _ => 0 := by
  funext x
  simp only [volume]
  split_ifs
  · have hsec : 3 ≤ sectorOf (smallGeometry clusters) 2 := le_rfl
    change diskOf (fun c => if c = 2 then clusterEoc else 0) _ _ = 0
    exact diskOf_of_le _ (Nat.le_add_right_of_le hsec) _
  · rfl

theorem consistent_emptyStart (hclusters : clusters < 127) (hpos : 0 < clusters) :
    Consistent (smallGeometry clusters) (volume (smallGeometry clusters) emptyStart) := by
  refine consistent_of_root (cells_emptyStart hpos) ?_ (data_emptyStart clusters)
  intro c (hne : c ≠ 2)
  by_cases hc : InRange (smallGeometry clusters) c
  · have hlow : c < 128 := lt_of_lt_of_le hc.2 (by simp only [smallGeometry]; omega)
    have hentry : fatEntry (smallGeometry clusters) emptyStart c =
        (if c = 2 then clusterEoc else 0) % 2 ^ 32 &&& clusterMask := fatEntry_diskOf _ hlow
    left
    rw [cells_eq hc, hentry, if_neg hne]
    rfl
  · exact .inr (if_neg hc)

theorem exists_createdFile : ∃ t, Run (FittingStep (smallMount 4)) emptyStart
    [.createDirent 2 [65] 0x20] t := by
  have hfits : (Op.createDirent 2 [65] 0x20).Fits (smallGeometry 4)
      (volume (smallGeometry 4) emptyStart) := ⟨.root, by decide +kernel⟩
  obtain ⟨fuel, out, t, ht, -⟩ := Op.ends (ready_smallMount (by decide))
    (consistent_emptyStart (by decide) (by decide)) hfits
  exact ⟨t, .cons ⟨hfits, fuel, out, ht⟩ (.nil t)⟩

end

/-- The successor relation of the clusters. -/
structure Chained (v : Volume) : Prop where
  injective : ∀ a b c, v.cells a = .next c → v.cells b = .next c → a = b
  acyclic : ∀ a, ¬ Relation.TransGen (fun x y => v.cells x = .next y) a a
  ends : ∀ a, Used v.cells a → ∃ l, Chain v.cells a l

/-- Chains only get clusters that were free, behind one end or as chains of their own. -/
structure Appends (v v' : Volume) (worked : Option ℕ) : Prop where
  links : ∀ a b, v.cells a = .next b → v'.cells a = .next b
  others : ∀ h l, Head v.cells h → worked ≠ some h → Chain v.cells h l → Chain v'.cells h l
  tail : ∀ h l, worked = some h → Chain v.cells h l →
    ∃ fresh, Chain v'.cells h (l ++ fresh) ∧ ∀ x ∈ fresh, v.cells x = .free
  /-- A free cluster stays free, is behind that end, or is in a chain of such clusters. -/
  taken : ∀ c, v.cells c = .free → v'.cells c ≠ .free →
    ∃ h l, Head v'.cells h ∧ Chain v'.cells h l ∧ c ∈ l ∧
      (worked = some h ∨ ∀ x ∈ l, v.cells x = .free)

theorem Consistent.chained (hv : Consistent g v) : Chained v :=
  ⟨hv.cells.injective, hv.cells.acyclic, hv.cells.ends⟩

theorem Progress.appends (hv : Consistent g v) {worked : Option ℕ}
    (hp : Progress g (fun c => ∃ h, worked = some h ∧ OnChain v h c) v v')
    (hworked : ∀ h, worked = some h → Head v.cells h)
    (hrange : ∀ c, Used v'.cells c → InRange g c) : Appends v v' worked := by
  -- the chain of another head does not meet the one that is worked on
  have hother : ∀ h l, Head v.cells h → worked ≠ some h → Chain v.cells h l →
      Chain v'.cells h l := by
    intro h l hh hne hl
    refine hp.grown.chain hl ?_
    rintro x hx ⟨w, hw, k, hk, hxk⟩
    have hwh : h ≠ w := by
      rintro rfl
      exact hne hw
    exact Chain.disjoint_of_heads hv.cells hh (hworked w hw) hwh hl hk hx hxk
  refine ⟨hp.grown.link, hother, fun h l _ hl => ?_, ?_⟩
  · exact hp.grown.chain_append hp.consistent.cells hl
  · intro c hfree htaken
    have hused : Used v'.cells c := by
      rcases hp.grown.fresh c hfree with hsame | hlast | ⟨b, hb, -⟩
      · exact absurd hsame htaken
      · exact .inl hlast
      · exact .inr ⟨b, hb⟩
    have hnodes : ∀ a, Used v'.cells a → a ∈ List.range g.maximumClusterSize :=
      fun a ha => List.mem_range.mpr (hrange a ha).2
    obtain ⟨h, l, hh, hl, hmem⟩ := hp.consistent.cells.exists_head hnodes hused
    refine ⟨h, l, hh, hl, hmem, ?_⟩
    by_cases hhfree : v.cells h = .free
    · exact .inr (hp.grown.chain_fresh hl hhfree)
    · left
      -- a head that was in use was a head, and its chain did not have the cluster
      have hhused : Used v.cells h := by
        cases hcell : v.cells h with
        | free => exact absurd hcell hhfree
        | last => exact .inl hcell
        | next b => exact .inr ⟨b, hcell⟩
        | broken =>
          have hbroken := hp.grown.broken h hcell
          rcases hh.used with hlast | ⟨b, hb⟩ <;> simp_all
      have hhead : Head v.cells h := ⟨hhused, fun b hb => hh.first b (hp.grown.link b h hb)⟩
      by_contra hne
      obtain ⟨l', hl'⟩ := hv.cells.ends h hhused
      rw [hl.unique (hother h l' hhead hne hl')] at hmem
      rcases hl'.used_of_mem hmem with hlast | ⟨b, hb⟩ <;> simp_all

end Taavi.Fat
