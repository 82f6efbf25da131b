import Taavi.Fat.Reads

/-!
# The table

What the functions for the table do to the cells of the volume. They fail without a block of the
heap. The allocation takes the first free cluster at or after the hint.
-/

namespace Taavi.Fat

open Lib

variable {m : Mount} {g : Geometry} {s t : State} {c d value : ℕ}

section

variable {e : ℕ} {l live : List ℕ}

theorem entriesPerSector_eq : entriesPerSector = 128 := rfl

theorem entry_div_mod {i j : ℕ} (hj : j < entriesPerSector) :
    (i * entriesPerSector + j) / entriesPerSector = i ∧
      (i * entriesPerSector + j) % entriesPerSector = j := by
  rw [entriesPerSector_eq] at *
  omega

theorem and_clusterMask (n : ℕ) : n &&& clusterMask = n % 2 ^ 28 :=
  Nat.and_two_pow_sub_one_eq_mod n 28

theorem cells_eq (hc : InRange g c) : (volume g s).cells c = cellOf g (fatEntry g s c) := if_pos hc

theorem cellOf_eq_free : cellOf g e = .free ↔ e = 0 := by
  unfold cellOf clusterFree
  split_ifs <;> simp_all

theorem cellOf_eq_last : cellOf g e = .last ↔ clusterEocMin ≤ e := by
  unfold cellOf
  split_ifs with hfree hlast hrange
  · simp [hfree, clusterFree, clusterEocMin]
  · simp [hlast]
  · simp [hlast]
  · simp [hlast]

theorem cellOf_eq_next (h : cellOf g e = .next d) : e = d ∧ InRange g d := by
  unfold cellOf at h
  split_ifs at h with hfree hlast hrange
  obtain rfl := Cell.next.inj h
  exact ⟨rfl, hrange⟩

theorem Sane.cellOf_inRange (hg : Sane g) (hc : InRange g c) : cellOf g c = .next c := by
  have hlow := hc.1
  have hhigh := hc.2
  have hmarks := hg.marks
  rw [cellOf, if_neg (by rw [clusterFree]; omega), if_neg (by rw [clusterEocMin]; omega), if_pos hc]

theorem cellOf_clusterEoc : cellOf g clusterEoc = .last := cellOf_eq_last.mpr (by decide)

theorem inRange_of_cells (h : (volume g s).cells c ≠ .broken) : InRange g c := by
  by_contra hc
  exact h (if_neg hc)

theorem inRange_of_used (h : Used (volume g s).cells c) : InRange g c := by
  refine inRange_of_cells (s := s) fun hbroken => ?_
  rcases h with hlast | ⟨b, hb⟩ <;> simp_all

theorem Effect.inRange {v : Volume} (h : Effect g s t v live) (hc : Used v.cells c) : InRange g c :=
  inRange_of_used (h.volume ▸ hc)

theorem Effect.inRange_of_nextFree {v : Volume} (h : Effect g s t v live)
    (hc : nextFree g v = some c) : InRange g c := by
  refine inRange_of_cells (s := t) ?_
  simp [h.volume, free_of_nextFree hc]

theorem inRange_of_next (h : (volume g s).cells c = .next d) : InRange g d := by
  have hc : InRange g c := inRange_of_used (.inr ⟨d, h⟩)
  rw [cells_eq hc] at h
  exact (cellOf_eq_next h).2

/-- The entry of a cluster in the first table, with all its bits. -/
def rawEntry (g : Geometry) (s : State) (c : ℕ) : ℕ :=
  (s.disk (g.fatStart + c / entriesPerSector)).read (c % entriesPerSector * 4) 4

/-- The entries of clusters that are not in a list have kept all their bits. -/
def EntriesKept (g : Geometry) (l : List ℕ) (s t : State) : Prop :=
  ∀ e < entriesPerSector * g.sectorsPerFat, e ∉ l → rawEntry g t e = rawEntry g s e

theorem EntriesKept.of_disk (h : t.disk = s.disk) : EntriesKept g l s t := by
  intro e _ _
  rw [rawEntry, rawEntry, h]

theorem EntriesKept.of_disks {s₀ u : State} (h : EntriesKept g l s t)
    (hs : s.disk = s₀.disk) (hu : u.disk = t.disk) : EntriesKept g l s₀ u := by
  intro e he hnot
  have hkept := h e he hnot
  rwa [rawEntry, rawEntry, ← hu, hs] at hkept

theorem EntriesKept.trans {l' k : List ℕ} {u : State} (h : EntriesKept g l s t)
    (h' : EntriesKept g l' t u) (hl : l ⊆ k) (hl' : l' ⊆ k) : EntriesKept g k s u :=
  fun e he hnot => (h' e he fun hmem => hnot (hl' hmem)).trans (h e he fun hmem => hnot (hl hmem))

section

variable (hsec : t.disk (g.fatStart + c / entriesPerSector) =
    (s.disk (g.fatStart + c / entriesPerSector)).write (c % entriesPerSector * 4) 4 value)
  (hother : ∀ k, k ≠ g.fatStart + c / entriesPerSector →
    k ≠ g.fatStart + c / entriesPerSector + g.sectorsPerFat → t.disk k = s.disk k)
include hsec hother

theorem entriesKept_setEntry : EntriesKept g [c] s t := by
  intro e he hne
  rw [List.mem_singleton] at hne
  rw [entriesPerSector_eq] at *
  rw [rawEntry, rawEntry, entriesPerSector_eq]
  by_cases hsame : e / 128 = c / 128
  · rw [hsame, hsec, Memory.read_write_of_disjoint (by omega)]
  · rw [hother _ (by omega) (by omega)]

theorem fatEntry_setEntry {e : ℕ} (he : e < entriesPerSector * g.sectorsPerFat) (hne : e ≠ c) :
    fatEntry g t e = fatEntry g s e :=
  congrArg (· &&& clusterMask)
    (entriesKept_setEntry hsec hother e he (by rwa [List.mem_singleton]))

theorem volume_setEntry (hg : Sane g) (hc : InRange g c) (hvalue : value < 2 ^ 28) :
    (volume g t).cells = Function.update (volume g s).cells c (cellOf g value) ∧
      (volume g t).data = (volume g s).data := by
  have hentry := hg.entry_lt hc.2
  have hdata := hg.data
  constructor
  · funext d
    by_cases hdc : d = c
    · subst hdc
      rw [Function.update_self, cells_eq hc, fatEntry, hsec, Memory.read_write_same,
        and_clusterMask]
      congr 1
      omega
    · rw [Function.update_of_ne hdc]
      by_cases hd : InRange g d
      · have hentry' := hg.entry_lt hd.2
        rw [cells_eq hd, cells_eq hd, fatEntry_setEntry hsec hother ?_ hdc]
        rw [entriesPerSector_eq] at hentry' ⊢
        omega
      · simp only [volume, hd, if_false]
  · -- the clusters begin after the tables
    funext d x
    have hsame : ∀ q, t.disk (sectorOf g d + q) = s.disk (sectorOf g d + q) := by
      intro q
      apply hother <;> unfold sectorOf <;> omega
    simp only [volume, hsame]

theorem beside_setEntry (hg : Sane g) (hc : InRange g c)
    (hsnd : t.disk (g.fatStart + c / entriesPerSector + g.sectorsPerFat) =
      t.disk (g.fatStart + c / entriesPerSector)) : Beside g s t := by
  have hentry := hg.entry_lt hc.2
  rw [entriesPerSector_eq] at *
  refine ⟨fun halike k hk i hi x hx => ?_, fun k hk => ?_, fun e hle hlt => ?_⟩
  · rw [hg.fats] at hk
    rcases Nat.eq_zero_or_pos k with rfl | hpos
    · rw [zero_mul, add_zero]
    · obtain rfl : k = 1 := by omega
      have hold := halike 1 (by rw [hg.fats]; omega) i hi x hx
      rw [one_mul, add_right_comm] at hold ⊢
      by_cases hi' : i = c / 128
      · rw [hi', hsnd]
      · rw [hother _ (by omega) (by omega), hother _ (by omega) (by omega), hold]
  · refine hother k ?_ ?_ <;> rintro rfl <;> exact hk (.inl (by omega))
  · exact fatEntry_setEntry hsec hother hlt (Nat.ne_of_gt (hc.2.trans_le hle))

end

theorem writeCluster_entries (hm : Ready m) (hc : InRange m c) (buf : Memory) (s : State) :
    Returns (writeCluster m c buf) s fun _ t => EntriesKept m [] s t := by
  have hsec := hm.sane.clusterToSector_eq hc
  have hpos := hm.sane.sectorOf_pos (c := c)
  have hend := hm.sane.sectorOf_add_le hc
  have hdata := hm.sane.data
  unfold writeCluster
  simp only [hsec]
  rw [if_neg (by rw [invalidCluster]; omega)]
  refine (writeSectors_spec hm.disk buf (by omega) s).returns.imp ?_
  rintro _ t ⟨-, hdisk, -⟩ e he -
  have hentry : e / entriesPerSector < m.sectorsPerFat := Nat.div_lt_of_lt_mul he
  rw [rawEntry, rawEntry, hdisk, if_neg]
  unfold sectorOf
  omega

end

theorem ataReadSector_spec (hm : Ready m) (lba : ℕ) (s : State) :
    Ends (ataReadSector m lba) s fun r t =>
      r = some (s.disk lba) ∧ t.disk = s.disk ∧
      Effect m s t (volume m s) s.live := by
  refine ⟨_, _, rfl, ?_, rfl, .of_eq rfl rfl rfl⟩
  rw [hm.disk]
  rfl

theorem ataWriteSector_spec (hm : Ready m) (lba : ℕ) (data : Memory) (s : State) :
    Ends (ataWriteSector m lba data) s fun r t =>
      r = true ∧ t.disk = assign s.disk lba data ∧
      t.lastAllocatedCluster = s.lastAllocatedCluster ∧ t.live = s.live ∧
      t.written = lba :: s.written := by
  refine ⟨true, { s with
    accesses := s.accesses + 1
    written := lba :: s.written
    disk := assign s.disk lba data }, ?_, rfl, rfl, rfl, rfl, rfl⟩
  simp [ataWriteSector, hm.disk]

/-- What the table has for the number of a cluster. -/
def nextOf (g : Geometry) (disk : ℕ → Memory) (c : ℕ) : ℕ :=
  (disk (calculateLba g c)).read (calculateOffset g c / 4 * 4) 4 &&& clusterMask

theorem Sane.nextOf_eq (hg : Sane g) (hc : InRange g c) : nextOf g s.disk c = fatEntry g s c := by
  rw [nextOf, hg.calculateLba_eq hc, hg.calculateOffset_eq hc]
  rfl

theorem nextCluster_outcome (m : Mount) (c : ℕ) (s : State) :
    Ends (nextCluster m c) s fun r t => OnlyRead s t ∧
      (r = nextOf m s.disk c ∨ r = invalidCluster ∧ Fails m) := by
  refine (allocateBuffer_outcome m s).bind ?_
  rintro _ _ (⟨hfail, rfl, rfl⟩ | ⟨-, rfl, rfl⟩)
  · exact ends_pure ⟨⟨rfl, rfl, rfl, rfl⟩, .inr ⟨rfl, .inl ⟨_, hfail⟩⟩⟩
  · refine (ends_ataReadSector m _ _).bind ?_
    rintro _ _ ⟨rfl, rfl⟩
    dsimp only
    have hfree : ∀ a : ℕ, Ends (do kfree s.mallocs; pure a) { s with
        mallocs := s.mallocs + 1
        live := s.mallocs :: s.live
        accesses := s.accesses + 1 } fun r t => r = a ∧ OnlyRead s t := by
      intro a
      refine ⟨a, { s with mallocs := s.mallocs + 1, accesses := s.accesses + 1 }, ?_, rfl, rfl, rfl,
        rfl, rfl⟩
      refine run_bind (a := ()) ?_
      simp [kfree]
    split_ifs with hfail
    · refine (hfree _).imp ?_
      rintro _ t ⟨rfl, ht⟩
      exact ⟨ht, .inr ⟨rfl, .inr ⟨_, hfail⟩⟩⟩
    · refine (hfree _).imp ?_
      rintro _ t ⟨rfl, ht⟩
      exact ⟨ht, .inl rfl⟩

theorem reads_nextCluster (m : Mount) (cluster : ℕ) : Reads (nextCluster m cluster) :=
  fun s => (nextCluster_outcome m cluster s).returns.imp fun _ _ h => h.1.1

theorem reads_walkClusters (m : Mount) (left cluster : ℕ) : Reads (walkClusters m left cluster) := by
  induction left generalizing cluster with
  | zero => exact reads_pure _
  | succ left ih =>
    refine (reads_nextCluster m cluster).bind fun next => ?_
    split_ifs
    · exact reads_pure _
    · exact ih next

theorem nextCluster_spec (hm : Ready m) (hc : InRange m c) (s : State) :
    Ends (nextCluster m c) s fun r t =>
      (cellOf m r = (volume m s).cells c ∨ r = 0 ∧ HeapFails m) ∧
      Effect m s t (volume m s) s.live := by
  refine (nextCluster_outcome m c s).imp ?_
  rintro r t ⟨hread, rfl | ⟨rfl, hfail | ⟨n, hfail⟩⟩⟩
  · rw [hm.sane.nextOf_eq hc, cells_eq hc]
    exact ⟨.inl rfl, hread.effect⟩
  · exact ⟨.inr ⟨rfl, hfail⟩, hread.effect⟩
  · exact absurd (hfail.symm.trans (hm.disk n)) (by decide)

theorem writeEntry_spec (hm : Ready m) (hc : InRange m c) (hvalue : value < 2 ^ 28)
    {lba mirror : ℕ} (hlba : lba = m.fatStart + c / entriesPerSector)
    (hmirror : mirror = m.fatStart + c / entriesPerSector + m.sectorsPerFat) (s : State) :
    let changed := (s.disk lba).write (c % entriesPerSector * 4) 4 value
    Ends (ataWriteSector m lba changed) s fun r t => r = true ∧
      Ends (ataWriteSector m mirror changed) t fun r u => r = true ∧
        (volume m u) = (volume m s).setCell c (cellOf m value) ∧
        u.live = s.live ∧ (∀ x ∈ u.written, x ∈ s.written ∨ Inside m x) ∧
        Beside m s u ∧ EntriesKept m [c] s u := by
  intro changed
  have hentry := hm.sane.entry_lt hc.2
  rw [entriesPerSector_eq] at hentry hlba hmirror
  refine (ataWriteSector_spec hm lba changed s).imp ?_
  rintro _ t ⟨rfl, hdisk, hhint, hlive, hwrote⟩
  refine ⟨rfl, (ataWriteSector_spec hm mirror changed t).imp ?_⟩
  rintro _ u ⟨rfl, hdisk', hhint', hlive', hwrote'⟩
  have hne : lba ≠ mirror := by omega
  have hfst : u.disk (m.fatStart + c / entriesPerSector) = changed := by
    rw [entriesPerSector_eq, ← hlba, hdisk', hdisk, assign_of_ne _ _ hne, assign_same]
  have hsnd : u.disk (m.fatStart + c / entriesPerSector + m.sectorsPerFat) = changed := by
    rw [entriesPerSector_eq, ← hmirror, hdisk', assign_same]
  have hchanged : changed =
      (s.disk (m.fatStart + c / entriesPerSector)).write (c % entriesPerSector * 4) 4 value := by
    rw [entriesPerSector_eq, ← hlba]
    rfl
  have hother : ∀ k, k ≠ m.fatStart + c / entriesPerSector →
      k ≠ m.fatStart + c / entriesPerSector + m.sectorsPerFat → u.disk k = s.disk k := by
    intro k hk hk'
    rw [entriesPerSector_eq, ← hlba] at hk
    rw [entriesPerSector_eq, ← hmirror] at hk'
    rw [hdisk', hdisk, assign_of_ne _ _ hk', assign_of_ne _ _ hk]
  have hsec := hfst.trans hchanged
  refine ⟨rfl, ?_, hlive'.trans hlive, ?_,
    beside_setEntry hsec hother hm.sane hc (hsnd.trans hfst.symm),
    entriesKept_setEntry hsec hother⟩
  · obtain ⟨hcells, hdata⟩ := volume_setEntry hsec hother hm.sane hc hvalue
    exact Volume.ext hcells hdata (hhint'.trans hhint)
  · intro x hx
    rw [hwrote', hwrote, List.mem_cons, List.mem_cons] at hx
    rcases hx with rfl | rfl | hx
    · exact .inr (.inl (by omega))
    · exact .inr (.inl (by omega))
    · exact .inl hx

theorem setCluster_spec (hm : Ready m) (hc : InRange m c) (hvalue : value < 2 ^ 28) (s : State) :
    Ends (setCluster m c value) s fun r t =>
      (r = true ∧ Effect m s t ((volume m s).setCell c (cellOf m value)) s.live ∧
        EntriesKept m [c] s t) ∨
      (r = false ∧ HeapFails m ∧ Effect m s t (volume m s) s.live) := by
  have hentry := hm.sane.entry_lt hc.2
  have hend := hm.sane.dataStart_le hc
  have hdata := hm.sane.data
  refine ((allocateBuffer_spec m s).and (reads_allocateBuffer m s)).bind ?_
  rintro r t ⟨⟨rfl, hfail, ht⟩ | ⟨block, rfl, ht⟩, hsame⟩
  · exact ends_pure (.inr ⟨rfl, hfail, ht⟩)
  · refine (ataReadSector_spec hm _ t).bind ?_
    rintro _ u ⟨rfl, hdisk, hu⟩
    rw [ht.volume, ht.live] at hu
    replace hu := ht.trans hu
    have hlba := hm.sane.calculateLba_eq hc
    have hmirror : u32 (calculateLba m c + m.sectorsPerFat) =
        m.fatStart + c / entriesPerSector + m.sectorsPerFat := by
      rw [hlba, u32, Nat.mod_eq_of_lt (by omega)]
    have hwrites := writeEntry_spec hm hc hvalue hlba hmirror u
    rw [← hm.sane.calculateOffset_eq hc, hdisk] at hwrites
    refine hwrites.bind ?_
    rintro _ w ⟨rfl, hmore⟩
    refine hmore.bind ?_
    rintro _ w' ⟨rfl, hvol, hlive, hwrote, hbeside, hkept⟩
    have hw : Effect m u w' _ u.live := ⟨hvol, hlive, hwrote, hbeside⟩
    rw [hu.volume, hu.live] at hw
    refine ((hu.trans hw).kfree.and (reads_kfree block w')).bind fun _ x hx => ?_
    exact ends_pure (.inl ⟨rfl, hx.1, hkept.of_disks (hdisk.trans hsame) hx.2⟩)

theorem setCluster_of_last (hm : Ready m) (hlast : (volume m s).cells c = .last) :
    Ends (setCluster m c clusterEoc) s fun r t => Effect m s t (volume m s) s.live ∧
      ((r = true ∧ EntriesKept m [c] s t) ∨ (r = false ∧ HeapFails m)) := by
  have hc : InRange m c := inRange_of_used (.inl hlast)
  have hmarked : (volume m s).setCell c (cellOf m clusterEoc) = volume m s := by
    refine Volume.ext ?_ rfl rfl
    rw [cellOf_clusterEoc, Volume.setCell_cells]
    exact Function.update_eq_self_iff.mpr hlast.symm
  refine (setCluster_spec hm hc (by decide : clusterEoc < 2 ^ 28) s).imp ?_
  rw [hmarked]
  rintro _ t (⟨rfl, ht, hkept⟩ | ⟨rfl, hfail, ht⟩)
  · exact ⟨ht, .inl ⟨rfl, hkept⟩⟩
  · exact ⟨ht, .inr ⟨rfl, hfail⟩⟩

section

variable {v : Volume} {live : List ℕ}

theorem isFreeEntry_iff {i j : ℕ} (hj : j < entriesPerSector) :
    isFreeEntry (s.disk (g.fatStart + i)) i j = true ↔
      2 ≤ i * entriesPerSector + j ∧ fatEntry g s (i * entriesPerSector + j) = 0 := by
  rw [entriesPerSector_eq] at hj ⊢
  have hdiv : (i * 128 + j) / 128 = i := by omega
  have hmod : (i * 128 + j) % 128 = j := by omega
  simp only [isFreeEntry, fatEntry, entriesPerSector_eq, hdiv, hmod, clusterFree, Bool.and_eq_true,
    Bool.not_eq_true', Bool.and_eq_false_imp, decide_eq_true_eq, decide_eq_false_iff_not,
    beq_iff_eq]
  omega

/-- Where the search of `__fat32_alloc_cluster` in the sector `i` of the table ends. -/
def freeEntry (m : Mount) (disk : ℕ → Memory) (start proposed i : ℕ) : Option ℕ :=
  firstFrom (if i = start then proposed else 0) entriesPerSector
    (isFreeEntry (disk (u32 (m.fatStart + i))) i)

theorem freeEntry_eq_none {hint i : ℕ} (haddress : m.fatStart + i < 2 ^ 32)
    (hi : hint / entriesPerSector ≤ i)
    (hused : ∀ e, hint ≤ e → 2 ≤ e → e / entriesPerSector = i → fatEntry m s e ≠ clusterFree) :
    freeEntry m s.disk (hint / entriesPerSector) (hint % entriesPerSector) i = none := by
  unfold freeEntry
  rw [u32, Nat.mod_eq_of_lt haddress]
  refine firstFrom_eq_none.mpr fun j hreal hj => ?_
  rw [← Bool.not_eq_true, isFreeEntry_iff (g := m) hj]
  rintro ⟨hlow, hzero⟩
  refine hused (i * entriesPerSector + j) ?_ hlow (entry_div_mod hj).1 hzero
  rw [entriesPerSector_eq] at hreal hi ⊢
  split_ifs at hreal with hsame <;> omega

theorem allocSectors_skip {block start proposed i : ℕ} (n left : ℕ)
    (hreads : ∀ k < n, m.diskFails (s.accesses + k) = false)
    (hnone : ∀ k < n, freeEntry m s.disk start proposed (i + k) = none) :
    allocSectors m block start proposed (n + left) i s =
      allocSectors m block start proposed left (i + n) { s with accesses := s.accesses + n } := by
  induction n generalizing i s with
  | zero =>
    rw [zero_add]
    rfl
  | succ n ih =>
    have hok : m.diskFails s.accesses = false := hreads 0 (by omega)
    have hread : ∀ lba, ataReadSector m lba s =
        some (some (s.disk lba), { s with accesses := s.accesses + 1 }) := by
      intro lba
      rw [ataReadSector, hok]
      rfl
    have hhere : freeEntry m s.disk start proposed i = none := hnone 0 (by omega)
    unfold freeEntry at hhere
    rw [add_right_comm n 1 left, allocSectors, run_bind (hread _)]
    simp only [hhere]
    rw [ih (fun k hk => ?_) fun k hk => ?_, add_assoc, add_assoc, add_comm 1 n]
    · rw [add_assoc, add_comm 1 k]
      exact hreads (k + 1) (by omega)
    · rw [add_assoc, add_comm 1 k]
      exact hnone (k + 1) (by omega)

theorem allocSectors_spec (hm : Ready m) {block : ℕ} (hc : InRange m c)
    (hfree : v.cells c = .free) (hhint : v.hint ≤ c)
    (hfst : ∀ d, v.hint ≤ d → d < c → v.cells d ≠ .free) (ht : Effect m s t v (block :: live)) :
    Ends (allocSectors m block (v.hint / entriesPerSector) (v.hint % entriesPerSector)
        (m.sectorsPerFat - v.hint / entriesPerSector) (v.hint / entriesPerSector)) t
      fun r u => r = c ∧ Effect m s u (v.take c) live ∧ EntriesKept m [c] t u := by
  have hentry := hm.sane.entry_lt hc.2
  have hend := hm.sane.dataStart_le hc
  have hdata := hm.sane.data
  have hstart : v.hint / entriesPerSector ≤ c / entriesPerSector := Nat.div_le_div_right hhint
  -- the entries from the hint on up to that of `c` are not free
  have hused : ∀ e, v.hint ≤ e → 2 ≤ e → e < c → fatEntry m t e ≠ clusterFree := by
    intro e hge hlow hlt hzero
    refine hfst e hge hlt ?_
    rw [← ht.volume, cells_eq ⟨hlow, hlt.trans hc.2⟩, hzero]
    rfl
  obtain ⟨n, hn⟩ := Nat.exists_eq_add_of_le hstart
  obtain ⟨left, hleft⟩ := Nat.exists_eq_add_of_lt hentry
  rw [show m.sectorsPerFat - v.hint / entriesPerSector = n + (left + 1) by omega]
  refine .of_run_eq (allocSectors_skip n (left + 1) (fun k _ => hm.disk _) fun k hk => ?_) ?_
  · refine freeEntry_eq_none (by omega) (Nat.le_add_right ..) fun e hge hlow hsec => ?_
    refine hused e hge hlow ?_
    rw [entriesPerSector_eq] at hn hsec
    omega
  rw [← hn, allocSectors]
  have haddress : u32 (m.fatStart + c / entriesPerSector) = m.fatStart + c / entriesPerSector :=
    Nat.mod_eq_of_lt (by omega)
  rw [haddress]
  refine (ataReadSector_spec hm _ _).bind ?_
  rintro _ u ⟨rfl, hdisk, hu⟩
  have ht' : Effect m s { t with accesses := t.accesses + n } v (block :: live) :=
    { ht with beside := ht.beside.trans (.of_disk rfl) }
  replace hu := ht'.trans hu
  rw [ht'.volume, ht'.live] at hu
  replace hdisk : u.disk = t.disk := hdisk
  have hindex : c / entriesPerSector * entriesPerSector + c % entriesPerSector = c :=
    Nat.div_add_mod' ..
  have hfound : firstFrom (if c / entriesPerSector = v.hint / entriesPerSector
      then v.hint % entriesPerSector else 0) entriesPerSector
      (isFreeEntry (t.disk (m.fatStart + c / entriesPerSector)) (c / entriesPerSector)) =
        some (c % entriesPerSector) := by
    refine firstFrom_eq_some.mpr ⟨?_, Nat.mod_lt _ (by decide), ?_, fun j hreal hj => ?_⟩
    · rw [entriesPerSector_eq]
      split_ifs with hsame <;> omega
    · rw [isFreeEntry_iff (g := m) (Nat.mod_lt _ (by decide)), hindex]
      refine ⟨hc.1, ?_⟩
      rwa [← ht.volume, cells_eq hc, cellOf_eq_free] at hfree
    · rw [← Bool.not_eq_true, isFreeEntry_iff (g := m) (hj.trans (Nat.mod_lt _ (by decide)))]
      rintro ⟨hlow, hzero⟩
      refine hused _ ?_ hlow (by omega) hzero
      rw [entriesPerSector_eq] at hreal hstart ⊢
      split_ifs at hreal with hsame <;> omega
  have hmirror : u32 (m.fatStart + m.sectorsPerFat + c / entriesPerSector) =
      m.fatStart + c / entriesPerSector + m.sectorsPerFat := by
    rw [u32, Nat.mod_eq_of_lt (by omega)]
    omega
  have hclus : u32 (c / entriesPerSector * entriesPerSector + c % entriesPerSector) = c := by
    have hmarks := hm.sane.marks
    have hlt := hc.2
    rw [hindex, u32, Nat.mod_eq_of_lt (by omega)]
  have hwrites := writeEntry_spec hm hc (by decide : clusterEoc < 2 ^ 28) rfl hmirror u
  rw [hdisk] at hwrites
  simp only [hfound, hclus]
  refine hwrites.bind ?_
  rintro _ w ⟨rfl, hmore⟩
  refine hmore.bind ?_
  rintro _ w' ⟨rfl, hvol, hlive, hwrote, hbeside, hkept⟩
  have hw : Effect m u w' _ u.live := ⟨hvol, hlive, hwrote, hbeside⟩
  rw [hu.volume, hu.live, cellOf_clusterEoc] at hw
  replace hw := hu.trans hw
  refine (ends_modify _ w').bind ?_
  rintro _ _ rfl
  have hx : Effect m s { w' with lastAllocatedCluster := c } (v.take c) (block :: live) := by
    refine ⟨?_, hw.live, hw.written, hw.beside.trans (.of_disk rfl)⟩
    have hcells : (volume m w').cells = (v.take c).cells := by rw [hw.volume]; rfl
    have hbytes : (volume m w').data = (v.take c).data := by rw [hw.volume]; rfl
    exact Volume.ext hcells hbytes rfl
  refine (hx.kfree.and (reads_kfree block _)).bind fun _ x hx => ?_
  exact ends_pure ⟨rfl, hx.1, hkept.of_disks hdisk hx.2⟩

theorem allocCluster_spec (hm : Ready m) (hfree : nextFree m (volume m s) = some c) :
    Ends (allocCluster m) s fun r t =>
      (r = c ∧ Effect m s t ((volume m s).take c) s.live ∧ EntriesKept m [c] s t) ∨
      (r = 0 ∧ HeapFails m ∧ Effect m s t (volume m s) s.live) := by
  obtain ⟨hhint, hlt, hcell, hfst⟩ := nextFree_eq_some.mp hfree
  have hc := (Effect.refl m s).inRange_of_nextFree hfree
  refine ((allocateBuffer_spec m s).and (reads_allocateBuffer m s)).bind ?_
  rintro r t ⟨⟨rfl, hfail, ht⟩ | ⟨block, rfl, ht⟩, hdisk⟩
  · exact ends_pure (.inr ⟨rfl, hfail, ht⟩)
  · refine (ends_get t).bind ?_
    rintro x y ⟨hx, hy⟩
    subst hx hy
    have hsame : y.lastAllocatedCluster = (volume m s).hint := by
      rw [← ht.volume]
      rfl
    simp only [hsame]
    refine (allocSectors_spec hm hc hcell hhint hfst ht).imp ?_
    exact fun r u h => .inl ⟨h.1, h.2.1, h.2.2.of_disks hdisk rfl⟩

end

variable {f : ℕ}

theorem nextCluster_of_next (hm : Ready m) (hcell : (volume m s).cells c = .next d) :
    Ends (nextCluster m c) s fun r t =>
      (r = d ∨ r = 0 ∧ HeapFails m) ∧ Effect m s t (volume m s) s.live := by
  have hc : InRange m c := inRange_of_used (.inr ⟨d, hcell⟩)
  refine (nextCluster_spec hm hc s).imp ?_
  rintro r t ⟨hr, ht⟩
  refine ⟨hr.imp_left fun hr => ?_, ht⟩
  rw [hcell] at hr
  exact (cellOf_eq_next hr).1

theorem nextCluster_of_last (hm : Ready m) (hcell : (volume m s).cells c = .last) :
    Ends (nextCluster m c) s fun r t =>
      (clusterEocMin ≤ r ∨ r = 0 ∧ HeapFails m) ∧ Effect m s t (volume m s) s.live := by
  have hc : InRange m c := inRange_of_used (.inl hcell)
  refine (nextCluster_spec hm hc s).imp ?_
  rintro r t ⟨hr, ht⟩
  refine ⟨hr.imp_left fun hr => ?_, ht⟩
  rwa [hcell, cellOf_eq_last] at hr

theorem linkClusterChain_of_next (hm : Ready m) (hcell : (volume m s).cells c = .next d) :
    Ends (linkClusterChain m c) s fun r t =>
      (r = d ∨ r = 0 ∧ HeapFails m) ∧ Effect m s t (volume m s) s.live ∧ t.disk = s.disk := by
  have hd := inRange_of_next hcell
  refine ((nextCluster_of_next hm hcell).and (reads_nextCluster m c s)).bind ?_
  rintro r t ⟨⟨hr, ht⟩, hdisk⟩
  have hlink : ¬ clusterEocMin ≤ r := by
    have hhigh := hd.2
    have hmarks := hm.sane.marks
    unfold clusterEocMin
    omega
  rw [if_neg hlink]
  exact ends_pure ⟨hr, ht, hdisk⟩

theorem linkClusterChain_of_last (hm : Ready m) (hcell : (volume m s).cells c = .last)
    (hfree : nextFree m (volume m s) = some f) :
    Ends (linkClusterChain m c) s fun r t =>
      (r = f ∧ Effect m s t ((volume m s).append c f) s.live ∧ EntriesKept m [c, f] s t) ∨
      (r = 0 ∧ HeapFails m ∧ ∃ v, Effect m s t v s.live ∧
        (v = volume m s ∨ v = (volume m s).take f ∨ v = (volume m s).append c f)) := by
  have hc : InRange m c := inRange_of_used (.inl hcell)
  have hcellf := free_of_nextFree hfree
  have hf := (Effect.refl m s).inRange_of_nextFree hfree
  have hne := (Used.ne (.inl hcell) hcellf).symm
  refine ((nextCluster_of_last hm hcell).and (reads_nextCluster m c s)).bind ?_
  rintro r t ⟨⟨hr | ⟨rfl, hfail⟩, ht⟩, hdisk⟩
  · rw [if_pos hr]
    rw [← ht.volume] at hfree
    refine (allocCluster_spec hm hfree).bind ?_
    rw [ht.volume, ht.live]
    rintro next u (⟨rfl, hu, htaken⟩ | ⟨rfl, hfail, hu⟩)
    · replace hu := ht.trans hu
      have hpos := hf.ne_invalid
      rw [if_neg hpos]
      refine (setCluster_spec hm hc (hm.sane.lt_of_inRange hf) u).bind ?_
      rw [hu.volume, hu.live, hm.sane.cellOf_inRange hf]
      rintro _ w (⟨rfl, hw, hlinked⟩ | ⟨rfl, hfail, hw⟩)
      · replace hw := hu.trans hw
        -- the new cluster was marked as an end when it was allocated
        have hlast : (volume m w).cells next = .last := by
          rw [hw.volume]
          simp [hne]
        refine (setCluster_of_last hm hlast).bind ?_
        rw [hw.volume, hw.live]
        rintro _ x ⟨hx, ⟨rfl, hended⟩ | ⟨rfl, hfail⟩⟩
        · refine ends_pure (.inl ⟨rfl, hw.trans hx, ?_⟩)
          have hfst := (htaken.of_disks hdisk rfl).trans hlinked (k := [c, next]) (by simp)
            (by simp)
          exact hfst.trans hended (List.Subset.refl _) (by simp)
        · exact ends_pure (.inr ⟨rfl, hfail, _, hw.trans hx, .inr (.inr rfl)⟩)
      · exact ends_pure (.inr ⟨rfl, hfail, _, hu.trans hw, .inr (.inl rfl)⟩)
    · exact ends_pure (.inr ⟨rfl, hfail, _, ht.trans hu, .inl rfl⟩)
  · rw [if_neg (by decide)]
    exact ends_pure (.inr ⟨rfl, hfail, _, ht, .inl rfl⟩)

end Taavi.Fat
