import Taavi.Fat.System

/-!
# Failing writes of the table

`__fat32_alloc_cluster` and `__fat32_set_cluster` write a sector to the first table and then to the
second. When the second write fails, the first one is not taken back.
-/

namespace Taavi.Fat

open Lib

/-- Both copies of the table are as they were, and no further cluster is allocated. -/
structure Restored (g : Geometry) (s t : State) : Prop where
  kept : ∀ k, g.fatStart ≤ k → k < g.fatStart + 2 * g.sectorsPerFat → ∀ x < sectorSize,
    t.disk k x = s.disk k x
  alike : CopiesAlike g s → CopiesAlike g t
  free : ∀ c < entriesPerSector * g.sectorsPerFat, fatEntry g s c = clusterFree →
    fatEntry g t c = clusterFree

/-- The accesses of a call before its second write succeed, and that write fails. -/
def MirrorFails (m : Mount) (s : State) (reads : ℕ) : Prop :=
  m.heapFails s.mallocs = false ∧ (∀ n ≤ reads, m.diskFails (s.accesses + n) = false) ∧
    m.diskFails (s.accesses + reads + 1) = true

/-- From the sector `i` on, `__fat32_alloc_cluster` finds its entry `n` sectors later, at `j`. -/
structure FindsEntry (m : Mount) (disk : ℕ → Memory) (start proposed i n j : ℕ) : Prop where
  bound : i + n < m.sectorsPerFat
  found : freeEntry m disk start proposed (i + n) = some j
  first : ∀ k < n, freeEntry m disk start proposed (i + k) = none

variable {m : Mount} {g : Geometry} {s t u : State} {start proposed block i n j left : ℕ}
  {live : List ℕ}

/-- What is left behind when the second write fails. -/
def Torn (m : Mount) (t u : State) (i n j : ℕ) : Prop :=
  u.disk = assign t.disk (u32 (m.fatStart + (i + n)))
    ((t.disk (u32 (m.fatStart + (i + n)))).write (j * 4) 4 clusterEoc)

/-- The ways in which the search and the two writes of `__fat32_alloc_cluster` end. -/
inductive Allocated (m : Mount) (start proposed i : ℕ) (t : State) : ℕ → State → Prop
  | kept {u : State} : u.disk = t.disk →
      (∀ n j, FindsEntry m t.disk start proposed i n j →
        ∃ k ≤ n + 1, m.diskFails (t.accesses + k) = true) →
      Allocated m start proposed i t invalidCluster u
  | torn {u : State} {n j : ℕ} : FindsEntry m t.disk start proposed i n j →
      (∀ k ≤ n + 1, m.diskFails (t.accesses + k) = false) →
      m.diskFails (t.accesses + n + 2) = true → Torn m t u i n j →
      Allocated m start proposed i t invalidCluster u
  | taken {u : State} {n j : ℕ} : FindsEntry m t.disk start proposed i n j →
      (∀ k ≤ n + 2, m.diskFails (t.accesses + k) = false) →
      Allocated m start proposed i t (u32 ((i + n) * entriesPerSector + j)) u

theorem ends_ataWriteSector (m : Mount) (lba : ℕ) (data : Memory) (t : State) :
    Ends (ataWriteSector m lba data) t fun r u => u.accesses = t.accesses + 1 ∧ u.live = t.live ∧
      (m.diskFails t.accesses = true ∧ r = false ∧ u.disk = t.disk ∨
        m.diskFails t.accesses = false ∧ r = true ∧ u.disk = assign t.disk lba data) := by
  cases hfail : m.diskFails t.accesses with
  | true => exact ⟨false, _, if_pos hfail, rfl, rfl, .inl ⟨rfl, rfl, rfl⟩⟩
  | false =>
    exact ⟨true, _, if_neg (ne_true_of_eq_false hfail), rfl, rfl, .inr ⟨rfl, rfl, rfl⟩⟩

theorem allocSectors_outcome (hblock : t.live = block :: live) (hleft : left = m.sectorsPerFat - i) :
    Ends (allocSectors m block start proposed left i) t (Allocated m start proposed i t) := by
  -- the first sector at which the loop does not go on
  have hstops : ∃ n, left ≤ n ∨ m.diskFails (t.accesses + n) = true ∨
      freeEntry m t.disk start proposed (i + n) ≠ none := ⟨left, .inl le_rfl⟩
  obtain ⟨n, hstop, hpre⟩ := Nat.findX hstops
  have hreads : ∀ k < n, m.diskFails (t.accesses + k) = false := fun k hk =>
    Bool.eq_false_iff.mpr fun hfail => hpre k hk (.inr (.inl hfail))
  have hnone : ∀ k < n, freeEntry m t.disk start proposed (i + k) = none := fun k hk =>
    Decidable.not_not.mp fun hfound => hpre k hk (.inr (.inr hfound))
  have hlater : ∀ {k j}, FindsEntry m t.disk start proposed i k j → n ≤ k := fun hfinds =>
    Nat.le_of_not_lt fun hlt => Option.some_ne_none _ (hfinds.found.symm.trans (hnone _ hlt))
  obtain ⟨rest, rfl⟩ := Nat.exists_eq_add_of_le
    (Nat.le_of_not_lt fun hlt => hpre left hlt (.inl le_rfl))
  refine .of_run_eq (allocSectors_skip n rest hreads hnone) ?_
  cases rest with
  | zero =>
    refine (ends_kfree_pure (t := { t with accesses := t.accesses + n }) hblock).imp ?_
    rintro _ u ⟨rfl, hdisk, -⟩
    refine .kept hdisk fun k j hfinds => absurd (hlater hfinds) ?_
    have hbound := hfinds.bound
    omega
  | succ left =>
    rw [allocSectors]
    refine (ends_ataReadSector m _ _).bind ?_
    rintro _ _ ⟨rfl, rfl⟩
    dsimp only
    cases hread : m.diskFails (t.accesses + n) with
    | true =>
      rw [if_pos rfl]
      refine (ends_kfree_pure (t := { t with accesses := t.accesses + n + 1 }) hblock).imp ?_
      rintro _ u ⟨rfl, hdisk, -⟩
      exact .kept hdisk fun k j hfinds => ⟨n, (hlater hfinds).trans (Nat.le_succ k), hread⟩
    | false =>
      rw [if_neg Bool.false_ne_true]
      dsimp only
      cases hfree : freeEntry m t.disk start proposed (i + n) with
      | none => simp [hread, hfree] at hstop
      | some entry =>
        have hhere : FindsEntry m t.disk start proposed i n entry := ⟨by omega, hfree, hnone⟩
        have hsearch := hfree
        unfold freeEntry at hsearch
        rw [hsearch]
        refine (ends_ataWriteSector m _ _ _).bind ?_
        rintro _ v ⟨haccess, hlive, ⟨hfst, rfl, hdisk⟩ | ⟨hfst, rfl, hdisk⟩⟩
        · refine (ends_kfree_pure (hlive.trans hblock)).imp ?_
          rintro _ w ⟨rfl, hw, -⟩
          refine .kept (hw.trans hdisk) fun k j hfinds => ?_
          exact ⟨n + 1, Nat.succ_le_succ (hlater hfinds), hfst⟩
        · refine (ends_ataWriteSector m _ _ v).bind ?_
          rw [haccess]
          have hboth : ∀ k ≤ n + 1, m.diskFails (t.accesses + k) = false := by
            intro k hk
            rcases lt_trichotomy k n with hlt | rfl | hgt
            · exact hreads k hlt
            · exact hread
            · obtain rfl : k = n + 1 := by omega
              exact hfst
          rintro _ w ⟨-, hlive', ⟨hsnd, rfl, hdisk'⟩ | ⟨hsnd, rfl, -⟩⟩
          · refine (ends_kfree_pure (hlive'.trans (hlive.trans hblock))).imp ?_
            rintro _ x ⟨rfl, hx, -⟩
            exact .torn hhere hboth hsnd (hx.trans (hdisk'.trans hdisk))
          · refine (ends_modify _ w).bind ?_
            rintro _ x rfl
            refine Ends.imp (ends_kfree_pure (hlive'.trans (hlive.trans hblock))) ?_
            rintro _ x ⟨rfl, -⟩
            refine .taken hhere fun k hk => ?_
            rcases lt_or_ge k (n + 2) with hlt | hge
            · exact hboth k (by omega)
            · obtain rfl : k = n + 2 := by omega
              exact hsnd

theorem allocCluster_outcome (m : Mount) (s : State) : Ends (allocCluster m) s fun r t =>
      (m.heapFails s.mallocs = true ∧ t.disk = s.disk ∧ r = invalidCluster) ∨
      (m.heapFails s.mallocs = false ∧
        Allocated m (s.lastAllocatedCluster / entriesPerSector)
          (s.lastAllocatedCluster % entriesPerSector) (s.lastAllocatedCluster / entriesPerSector)
          s r t) := by
  refine (allocateBuffer_outcome m s).bind ?_
  rintro _ _ (⟨hheap, rfl, rfl⟩ | ⟨hheap, rfl, rfl⟩)
  · exact ends_pure (.inl ⟨hheap, rfl, rfl⟩)
  · refine (ends_get _).bind ?_
    rintro _ _ ⟨rfl, rfl⟩
    refine (allocSectors_outcome rfl rfl).imp ?_
    intro r t ht
    refine .inr ⟨hheap, ?_⟩
    cases ht with
    | kept hdisk hfails => exact .kept hdisk hfails
    | torn hfinds hok hfail htorn => exact .torn hfinds hok hfail htorn
    | taken hfinds hok => exact .taken hfinds hok

theorem setCluster_outcome (m : Mount) (s : State) (cluster value : ℕ) :
    Ends (setCluster m cluster value) s fun ok t => ok = false →
      (t.disk = s.disk ∧ ¬MirrorFails m s 1) ∨
      (MirrorFails m s 1 ∧ t.disk = assign s.disk (calculateLba m cluster)
        ((s.disk (calculateLba m cluster)).write (calculateOffset m cluster / 4 * 4) 4 value)) := by
  have hnot : ∀ n, m.heapFails s.mallocs = true ∨ (n ≤ 1 ∧ m.diskFails (s.accesses + n) = true) →
      ¬MirrorFails m s 1 := by
    rintro n (hheap | ⟨hn, hfail⟩) ⟨hok, hpre, -⟩
    · rw [hheap] at hok
      cases hok
    · rw [hpre n hn] at hfail
      cases hfail
  refine (allocateBuffer_outcome m s).bind ?_
  rintro _ _ (⟨hheap, rfl, rfl⟩ | ⟨hheap, rfl, rfl⟩)
  · exact ends_pure fun _ => .inl ⟨rfl, hnot 0 (.inl hheap)⟩
  · refine (ends_ataReadSector m _ _).bind ?_
    rintro _ _ ⟨rfl, rfl⟩
    dsimp only
    cases hread : m.diskFails s.accesses with
    | true =>
      rw [if_pos rfl]
      refine Ends.imp (ends_kfree_pure rfl) ?_
      rintro _ u ⟨-, hdisk, -⟩ -
      exact .inl ⟨hdisk, hnot 0 (.inr ⟨by omega, hread⟩)⟩
    | false =>
      rw [if_neg Bool.false_ne_true]
      dsimp only
      refine (ends_ataWriteSector m _ _ _).bind ?_
      rintro _ v ⟨haccess, hlive, ⟨hfst, rfl, hdisk⟩ | ⟨hfst, rfl, hdisk⟩⟩
      · refine (ends_kfree_pure hlive).imp ?_
        rintro _ u ⟨-, hu, -⟩ -
        exact .inl ⟨hu.trans hdisk, hnot 1 (.inr ⟨le_refl 1, hfst⟩)⟩
      · refine (ends_ataWriteSector m _ _ v).bind ?_
        rw [haccess]
        rintro ok' w ⟨-, hlive', hends⟩
        refine (ends_kfree_pure (hlive'.trans hlive)).imp ?_
        rintro _ u ⟨rfl, hu, -⟩ rfl
        rcases hends with ⟨hsnd, -, hdisk'⟩ | ⟨-, hok, -⟩
        · refine .inr ⟨⟨hheap, fun n hn => ?_, hsnd⟩, hu.trans (hdisk'.trans hdisk)⟩
          rcases Nat.le_one_iff_eq_zero_or_eq_one.mp hn with rfl | rfl
          · exact hread
          · exact hfst
        · cases hok

theorem restored_of_kept (hg : Sane g) (hkept : ∀ k, g.fatStart ≤ k →
    k < g.fatStart + 2 * g.sectorsPerFat → ∀ x < sectorSize, t.disk k x = s.disk k x) :
    Restored g s t := by
  refine ⟨hkept, fun halike k hk i hi x hx => ?_, fun c hc hfree => ?_⟩
  · have hfats := hg.fats
    have hmul : k * g.sectorsPerFat ≤ 1 * g.sectorsPerFat := Nat.mul_le_mul_right _ (by omega)
    rw [hkept _ (by omega) (by omega) x hx, hkept _ (by omega) (by omega) x hx]
    exact halike k hk i hi x hx
  · have hsec : c / entriesPerSector < g.sectorsPerFat := Nat.div_lt_of_lt_mul hc
    rw [← hfree]
    unfold fatEntry
    rw [entriesPerSector_eq] at *
    congr 1
    refine Memory.read_congr fun x _ hx => hkept _ (by omega) (by omega) x ?_
    unfold sectorSize
    omega

theorem Sane.entry_inside (hg : Sane g) {c : ℕ} (hc : c < g.maximumClusterSize) :
    g.fatStart ≤ calculateLba g c ∧ calculateLba g c < g.fatStart + g.sectorsPerFat ∧
      calculateOffset g c / 4 * 4 + 4 ≤ sectorSize := by
  have hsec := hg.entry_lt hc
  have hend := hg.fat_le
  rw [calculateLba, calculateOffset, if_neg (by omega), if_neg (by omega), hg.u32_entry hc, hg.bytes]
  rw [entriesPerSector_eq] at hsec
  unfold u32 sectorSize
  omega

theorem FindsEntry.free (hg : Sane m) (h : FindsEntry m s.disk start proposed i n j) :
    j < entriesPerSector ∧ 2 ≤ (i + n) * entriesPerSector + j ∧
      fatEntry m s ((i + n) * entriesPerSector + j) = clusterFree := by
  have hend := hg.fat_le
  have hbound := h.bound
  have hsec : u32 (m.fatStart + (i + n)) = m.fatStart + (i + n) := Nat.mod_eq_of_lt (by omega)
  have hfound := h.found
  rw [freeEntry, hsec] at hfound
  obtain ⟨-, hj, hfree, -⟩ := firstFrom_eq_some.mp hfound
  exact ⟨hj, (isFreeEntry_iff hj).mp hfree⟩

theorem Torn.not_restored (hg : Sane m)
    (hfinds : FindsEntry m s.disk start proposed i n j) (h : Torn m s t i n j) :
    ¬Restored m s t := by
  intro hrestored
  obtain ⟨hj, -, hfree⟩ := hfinds.free hg
  have hend := hg.fat_le
  have hbound := hfinds.bound
  have hsec : u32 (m.fatStart + (i + n)) = m.fatStart + (i + n) := Nat.mod_eq_of_lt (by omega)
  have hlt : (i + n) * entriesPerSector + j < entriesPerSector * m.sectorsPerFat := by
    have hmul : (i + n + 1) * entriesPerSector ≤ m.sectorsPerFat * entriesPerSector :=
      Nat.mul_le_mul_right _ hbound
    rw [Nat.succ_mul] at hmul
    rw [mul_comm entriesPerSector]
    omega
  have hstill := hrestored.free _ hlt hfree
  rw [fatEntry, (entry_div_mod hj).1, (entry_div_mod hj).2, h, hsec, assign_same,
    Memory.read_write_same] at hstill
  revert hstill
  decide

theorem allocCluster_restored_iff (hg : Sane m)
    (htable : entriesPerSector * m.sectorsPerFat ≤ 2 ^ 32) (s : State) :
    Ends (allocCluster m) s fun r t => r = invalidCluster →
      (Restored m s t ↔ ∀ n j, FindsEntry m s.disk
        (s.lastAllocatedCluster / entriesPerSector) (s.lastAllocatedCluster % entriesPerSector)
        (s.lastAllocatedCluster / entriesPerSector) n j → ¬MirrorFails m s (n + 1)) := by
  refine (allocCluster_outcome m s).imp ?_
  rintro r t (⟨hheap, hdisk, -⟩ | ⟨hheap, hout⟩) hr
  · refine iff_of_true (restored_of_kept hg fun k _ _ x _ => by rw [hdisk]) ?_
    rintro n j - ⟨hok, -, -⟩
    rw [hheap] at hok
    cases hok
  · cases hout with
    | kept hdisk hfails =>
      refine iff_of_true (restored_of_kept hg fun k _ _ x _ => by rw [hdisk]) ?_
      rintro n j hfinds ⟨-, hok, -⟩
      obtain ⟨k, hk, hfail⟩ := hfails n j hfinds
      rw [hok k hk] at hfail
      cases hfail
    | torn hfinds hok hfail htorn =>
      exact iff_of_false (htorn.not_restored hg hfinds) fun hall =>
        hall _ _ hfinds ⟨hheap, hok, hfail⟩
    | @taken _ n j hfinds hok =>
      obtain ⟨hj, hlow, -⟩ := hfinds.free hg
      have hbound := hfinds.bound
      generalize s.lastAllocatedCluster / entriesPerSector + n = sector at hr hlow hbound
      have hmul : (sector + 1) * entriesPerSector ≤ m.sectorsPerFat * entriesPerSector :=
        Nat.mul_le_mul_right _ hbound
      rw [Nat.succ_mul] at hmul
      rw [mul_comm] at htable
      rw [u32, Nat.mod_eq_of_lt (by omega), invalidCluster] at hr
      omega

theorem setCluster_restored_iff (hg : Sane m) (s : State) (cluster value : ℕ) :
    Ends (setCluster m cluster value) s fun ok t => ok = false →
      (Restored m s t ↔ ¬(cluster < m.maximumClusterSize ∧
        (s.disk (calculateLba m cluster)).read
          (calculateOffset m cluster / 4 * 4) 4 ≠ u32 value ∧ MirrorFails m s 1)) := by
  refine (setCluster_outcome m s cluster value).imp ?_
  intro ok t hout hok
  rcases hout hok with ⟨hdisk, hnot⟩ | ⟨hfail, hdisk⟩
  · exact iff_of_true (restored_of_kept hg fun k _ _ x _ => by rw [hdisk]) fun h => hnot h.2.2
  · by_cases hrange : cluster < m.maximumClusterSize
    · obtain ⟨hlow, hhigh, hoff⟩ := hg.entry_inside hrange
      by_cases hsame : (s.disk (calculateLba m cluster)).read
          (calculateOffset m cluster / 4 * 4) 4 = u32 value
      · refine iff_of_true (restored_of_kept hg fun k _ _ x _ => ?_) fun h => h.2.1 hsame
        rw [hdisk, Memory.write_eq_self hsame, assign_apply]
        split_ifs with hk
        · rw [hk]
        · rfl
      · refine iff_of_false (fun hrestored => hsame ?_) fun h => h ⟨hrange, hsame, hfail⟩
        have hagree : (t.disk (calculateLba m cluster)).read (calculateOffset m cluster / 4 * 4) 4 =
            (s.disk (calculateLba m cluster)).read (calculateOffset m cluster / 4 * 4) 4 :=
          Memory.read_congr fun x _ hx =>
            hrestored.kept _ hlow (by omega) x (by omega)
        rw [← hagree, hdisk, assign_same, Memory.read_write_same]
        rfl
    · refine iff_of_true (restored_of_kept hg fun k hk _ x _ => ?_) fun h => hrange h.1
      have hzero : calculateLba m cluster = 0 := if_pos (by omega)
      have hstart := hg.start
      rw [hdisk, hzero, assign_of_ne _ _ (by omega)]

/-- Whichever accesses fail: a failed update leaves both copies of the table as they were exactly if
it is not the second write that failed, or that write would have changed nothing. -/
theorem failed_updates_restore_iff (hg : Sane m.toGeometry)
    (htable : entriesPerSector * m.sectorsPerFat ≤ 2 ^ 32) (s : State) :
    (∀ cluster value, ∃ ok t, setCluster m cluster value s = some (ok, t) ∧ (ok = false →
      (Restored m.toGeometry s t ↔ ¬(cluster < m.maximumClusterSize ∧
        (s.disk (calculateLba m.toGeometry cluster)).read
          (calculateOffset m.toGeometry cluster / 4 * 4) 4 ≠ u32 value ∧ MirrorFails m s 1)))) ∧
    ∃ r t, allocCluster m s = some (r, t) ∧ (r = invalidCluster →
      (Restored m.toGeometry s t ↔ ∀ n j, FindsEntry m s.disk
        (s.lastAllocatedCluster / entriesPerSector) (s.lastAllocatedCluster % entriesPerSector)
        (s.lastAllocatedCluster / entriesPerSector) n j → ¬MirrorFails m s (n + 1))) :=
  ⟨setCluster_restored_iff hg s, allocCluster_restored_iff hg htable s⟩

def failingMount (clusters access : ℕ) : Mount where
  toGeometry := smallGeometry clusters
  diskFails n := n == access
  heapFails _ := false

/-- When the first write of an allocation fails, the table is as it was. -/
theorem first_failed_write_restores : ∃ t, allocCluster (failingMount 4 1) emptyStart = some (0, t) ∧
    Restored (smallGeometry 4) emptyStart t := by
  have hready : Ready (smallMount 4) := ready_smallMount (by decide)
  have hg : Sane (failingMount 4 1).toGeometry := hready.sane
  have hfails : (allocCluster (failingMount 4 1) emptyStart).any (fun r => r.1 == 0) = true := by
    decide +kernel
  obtain ⟨-, r, t, hrun, hiff⟩ := failed_updates_restore_iff hg (by decide) emptyStart
  rw [hrun] at hfails
  obtain rfl : r = 0 := beq_iff_eq.mp hfails
  refine ⟨t, hrun, (hiff rfl).mpr ?_⟩
  rintro n j - ⟨-, hok, -⟩
  have hone := hok 1 (by omega)
  revert hone
  decide

/-- When the second write of an allocation fails, a cluster is lost in the first copy. -/
theorem second_failed_write_is_torn : ∃ t,
    allocCluster (failingMount 4 2) emptyStart = some (0, t) ∧
      ¬Restored (smallGeometry 4) emptyStart t := by
  have hfails : (allocCluster (failingMount 4 2) emptyStart).any (fun r => r.1 == 0 &&
      fatEntry (smallGeometry 4) r.2 3 != clusterFree) = true := by
    decide +kernel
  obtain ⟨⟨r, t⟩, hrun, hout⟩ := Option.any_eq_true _ _ |>.mp hfails
  rw [Bool.and_eq_true, beq_iff_eq, bne_iff_ne] at hout
  obtain ⟨rfl, htaken⟩ := hout
  refine ⟨t, hrun, fun hrestored => htaken (hrestored.free 3 (by decide) ?_)⟩
  decide +kernel

end Taavi.Fat
