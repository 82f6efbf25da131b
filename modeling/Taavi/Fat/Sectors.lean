import Taavi.Fat.Volume

/-!
# Reading and writing clusters

What accesses to the sectors of a cluster do to the volume. `Effect` says what a function leaves
behind.
-/

namespace Taavi.Fat

open Lib

/-- A mounted FAT32 volume whose disk has no errors. -/
structure Ready (m : Mount) : Prop where
  sane : Sane m.toGeometry
  disk : ∀ n, m.diskFails n = false

def HeapFails (m : Mount) : Prop := ∃ n, m.heapFails n = true

def DiskFails (m : Mount) : Prop := ∃ n, m.diskFails n = true

def Fails (m : Mount) : Prop := HeapFails m ∨ DiskFails m

theorem Ready.not_fails {m : Mount} (hm : Ready m) (hheap : ¬HeapFails m) : ¬Fails m := by
  rintro (hfail | ⟨n, hfail⟩)
  · exact hheap hfail
  · exact Bool.false_ne_true ((hm.disk n).symm.trans hfail)

def CopiesAlike (g : Geometry) (s : State) : Prop :=
  ∀ k < g.fatCount, ∀ i < g.sectorsPerFat, ∀ x < sectorSize,
    s.disk (g.fatStart + k * g.sectorsPerFat + i) x = s.disk (g.fatStart + i) x

/-- What accesses inside a volume keep: that the copies of the table are alike, the sectors around
the volume, and the table behind the last cluster. -/
structure Beside (g : Geometry) (s t : State) : Prop where
  copies : CopiesAlike g s → CopiesAlike g t
  outside : ∀ k, ¬ Inside g k → t.disk k = s.disk k
  spare : ∀ c, g.maximumClusterSize ≤ c → c < entriesPerSector * g.sectorsPerFat →
    fatEntry g t c = fatEntry g s c

/-- To a state with the given volume and blocks, with writes inside the volume only. -/
structure Effect (g : Geometry) (s t : State) (v : Volume) (live : List ℕ) : Prop where
  volume : volume g t = v
  live : t.live = live
  written : ∀ x ∈ t.written, x ∈ s.written ∨ Inside g x
  beside : Beside g s t

variable {m : Mount} {g : Geometry} {s t u : State} {v v' : Volume} {live live' : List ℕ}

theorem Beside.of_disk (hdisk : t.disk = s.disk) : Beside g s t := by
  refine ⟨fun halike => ?_, fun k _ => congrFun hdisk k, fun c _ _ => ?_⟩
  · unfold CopiesAlike
    rwa [hdisk]
  · unfold fatEntry
    rw [hdisk]

theorem Beside.trans (h : Beside g s t) (h' : Beside g t u) : Beside g s u where
  copies halike := h'.copies (h.copies halike)
  outside k hk := (h'.outside k hk).trans (h.outside k hk)
  spare c hle hlt := (h'.spare c hle hlt).trans (h.spare c hle hlt)

theorem Effect.refl (g : Geometry) (s : State) : Effect g s s (Fat.volume g s) s.live :=
  ⟨rfl, rfl, fun _ hx => .inl hx, .of_disk rfl⟩

theorem Effect.trans (h : Effect g s t v live) (h' : Effect g t u v' live') :
    Effect g s u v' live' := by
  refine ⟨h'.volume, h'.live, fun x hx => ?_, h.beside.trans h'.beside⟩
  rcases h'.written x hx with hx | hx
  · exact h.written x hx
  · exact .inr hx

theorem Effect.of_eq (hdisk : t.disk = s.disk)
    (hhint : t.lastAllocatedCluster = s.lastAllocatedCluster) (hwrote : t.written = s.written) :
    Effect g s t (Fat.volume g s) t.live := by
  refine ⟨?_, rfl, fun x hx => .inl (hwrote ▸ hx), .of_disk hdisk⟩
  ext1
  · funext c
    simp only [Fat.volume, fatEntry, hdisk]
  · funext c x
    simp only [Fat.volume, hdisk]
  · exact hhint

section

variable {block : ℕ}

theorem allocateBuffer_outcome (m : Mount) (s : State) : Ends (allocateBuffer m) s fun r t =>
    (m.heapFails s.mallocs = true ∧ r = none ∧ t = { s with mallocs := s.mallocs + 1 }) ∨
      (m.heapFails s.mallocs = false ∧ r = some s.mallocs ∧
        t = { s with mallocs := s.mallocs + 1, live := s.mallocs :: s.live }) := by
  cases hfail : m.heapFails s.mallocs with
  | true => exact ⟨_, _, if_pos hfail, .inl ⟨rfl, rfl, rfl⟩⟩
  | false =>
    exact ⟨_, _, if_neg (by rw [hfail]; exact Bool.false_ne_true), .inr ⟨rfl, rfl, rfl⟩⟩

theorem allocateBuffer_spec (m : Mount) (s : State) : Ends (allocateBuffer m) s fun r t =>
    (r = none ∧ HeapFails m ∧ Effect m s t (volume m s) s.live) ∨
      ∃ block, r = some block ∧ Effect m s t (volume m s) (block :: s.live) := by
  refine (allocateBuffer_outcome m s).imp ?_
  rintro r t (⟨hfail, rfl, rfl⟩ | ⟨-, rfl, rfl⟩)
  · exact .inl ⟨rfl, ⟨_, hfail⟩, .of_eq rfl rfl rfl⟩
  · exact .inr ⟨s.mallocs, rfl, .of_eq rfl rfl rfl⟩

theorem Effect.kfree (h : Effect g s t v (block :: live)) :
    Ends (Fat.kfree block) t fun _ u => Effect g s u v live := by
  refine ⟨(), { t with live := t.live.erase block }, by simp [Fat.kfree, h.live], ?_⟩
  have hblocks : t.live.erase block = live := by rw [h.live, List.erase_cons_head]
  have hu : Effect g t { t with live := t.live.erase block } (Fat.volume g t) live :=
    hblocks ▸ .of_eq rfl rfl rfl
  rw [h.volume] at hu
  exact h.trans hu

theorem Effect.ends_kfree {α : Type} {a : α} {post : α → State → Prop}
    (h : Effect g s t v (block :: live)) (hpost : ∀ u, Effect g s u v live → post a u) :
    Ends (do Fat.kfree block; pure a) t post :=
  h.kfree.bind fun _ u hu => ends_pure (hpost u hu)

theorem ends_kfree_pure {α : Type} {a : α}
    (hlive : t.live = block :: live) :
    Ends (do Fat.kfree block; pure a) t fun r u => r = a ∧ u.disk = t.disk ∧ u.live = live := by
  refine ⟨a, { t with live := t.live.erase block }, ?_, rfl, rfl, ?_⟩
  · have hfree : Fat.kfree block t = some ((), { t with live := t.live.erase block }) :=
      if_pos (hlive ▸ List.mem_cons_self ..)
    exact run_bind hfree
  · rw [hlive]
    exact List.erase_cons_head ..

end

variable {c : ℕ}

theorem splice_sector (buf data : Memory) (i x : ℕ) :
    buf.splice (i * sectorSize) data sectorSize x =
      if x / sectorSize = i then data (x % sectorSize) else buf x := by
  unfold Memory.splice sectorSize
  by_cases hx : x / 512 = i
  · rw [if_pos hx, if_pos (by omega), show x % 512 = x - i * 512 by omega]
  · rw [if_neg hx, if_neg (by omega)]

def OnlyRead (s t : State) : Prop :=
  t.disk = s.disk ∧ t.lastAllocatedCluster = s.lastAllocatedCluster ∧ t.live = s.live ∧
    t.written = s.written

theorem OnlyRead.effect (h : OnlyRead s t) : Effect g s t (volume g s) s.live :=
  h.2.2.1 ▸ .of_eq h.1 h.2.1 h.2.2.2

theorem ends_ataReadSector (m : Mount) (lba : ℕ) (t : State) :
    Ends (ataReadSector m lba) t fun r u => u = { t with accesses := t.accesses + 1 } ∧
      r = if m.diskFails t.accesses then none else some (t.disk lba) := ⟨_, _, rfl, rfl, rfl⟩

theorem readSectors_outcome (m : Mount) (sector left i : ℕ) (buf : Memory) (s : State) :
    Ends (readSectors m sector left i buf) s fun r t => OnlyRead s t ∧
      (r = none ∧ DiskFails m ∨
        r = some fun x => if i ≤ x / sectorSize ∧ x / sectorSize < i + left then
          s.disk (u32 (sector + x / sectorSize)) (x % sectorSize) else buf x) := by
  induction left generalizing i buf s with
  | zero =>
    refine ends_pure ⟨⟨rfl, rfl, rfl, rfl⟩, .inr (congrArg some (funext fun x => ?_))⟩
    rw [if_neg (by omega)]
  | succ left ih =>
    refine (ends_ataReadSector m _ s).bind ?_
    rintro _ _ ⟨rfl, rfl⟩
    cases hfail : m.diskFails s.accesses with
    | true => exact ends_pure ⟨⟨rfl, rfl, rfl, rfl⟩, .inl ⟨rfl, _, hfail⟩⟩
    | false =>
      refine (ih _ _ { s with accesses := s.accesses + 1 }).imp ?_
      rintro r t ⟨hread, hr⟩
      refine ⟨hread, hr.imp_right fun hr => hr.trans (congrArg some (funext fun x => ?_))⟩
      rw [splice_sector]
      by_cases hx : x / sectorSize = i
      · rw [if_neg (by omega), if_pos hx, if_pos (by omega), hx]
      · by_cases hlater : i + 1 ≤ x / sectorSize ∧ x / sectorSize < i + 1 + left
        · rw [if_pos hlater, if_pos (by omega)]
        · rw [if_neg hlater, if_neg hx, if_neg (by omega)]

def bytesOf (g : Geometry) (disk : ℕ → Memory) (c : ℕ) : Memory := fun x =>
  if x < clusterSize g then disk (u32 (clusterToSector g c + x / sectorSize)) (x % sectorSize) else 0

theorem Sane.bytesOf_eq (hg : Sane g) (hc : InRange g c) :
    bytesOf g s.disk c = (Fat.volume g s).data c := by
  have hend := hg.sectorOf_add_le hc
  funext x
  simp only [bytesOf, Fat.volume, hc, true_and, hg.clusterToSector_eq hc]
  split_ifs with hx
  · have hlt : x / sectorSize < g.sectorsPerCluster := (Nat.div_lt_iff_lt_mul (by decide)).mpr hx
    rw [u32, Nat.mod_eq_of_lt (by omega)]
  · rfl

theorem Sane.clusterToSector_ne (hg : Sane g) (hc : InRange g c) :
    clusterToSector g c ≠ invalidCluster := by
  rw [hg.clusterToSector_eq hc]
  exact Nat.ne_of_gt hg.sectorOf_pos

theorem readCluster_outcome (m : Mount) (c : ℕ) (s : State) :
    Ends (readCluster m c) s fun r t => OnlyRead s t ∧
      (r = none ∧ (clusterToSector m c = invalidCluster ∨ DiskFails m) ∨
        clusterToSector m c ≠ invalidCluster ∧ r = some (bytesOf m s.disk c)) := by
  unfold readCluster
  dsimp only
  split_ifs with hsec
  · exact ends_pure ⟨⟨rfl, rfl, rfl, rfl⟩, .inl ⟨rfl, .inl hsec⟩⟩
  · refine (readSectors_outcome m _ _ _ _ s).imp ?_
    rintro r t ⟨hread, ⟨rfl, hfail⟩ | rfl⟩
    · exact ⟨hread, .inl ⟨rfl, .inr hfail⟩⟩
    · refine ⟨hread, .inr ⟨hsec, congrArg some (funext fun x => ?_)⟩⟩
      simp only [bytesOf, clusterSize, ← Nat.div_lt_iff_lt_mul (by decide : 0 < sectorSize),
        Nat.zero_le, true_and, zero_add]

theorem readCluster_spec (hm : Ready m) (hc : InRange m c) (s : State) :
    Ends (readCluster m c) s fun r t =>
      r = some ((volume m s).data c) ∧
      Effect m s t (volume m s) s.live := by
  refine (readCluster_outcome m c s).imp ?_
  rintro r t ⟨hread, ⟨-, hsec | ⟨n, hfail⟩⟩ | ⟨-, rfl⟩⟩
  · exact absurd hsec (hm.sane.clusterToSector_ne hc)
  · exact absurd (hfail.symm.trans (hm.disk n)) (by decide)
  · exact ⟨congrArg some (hm.sane.bytesOf_eq hc), hread.effect⟩

theorem writeSectors_spec (hdisk : ∀ n, m.diskFails n = false) {sector left i : ℕ} (buf : Memory)
    (hend : sector + i + left ≤ 2 ^ 32) (s : State) :
    Ends (writeSectors m sector buf left i) s fun r t =>
      r = true ∧
      (∀ k, t.disk k = if sector + i ≤ k ∧ k < sector + i + left then
        buf.drop ((k - sector) * sectorSize) else s.disk k) ∧
      t.lastAllocatedCluster = s.lastAllocatedCluster ∧ t.live = s.live ∧
      ∀ k ∈ t.written, k ∈ s.written ∨ (sector ≤ k ∧ k < sector + i + left) := by
  induction left generalizing i s with
  | zero =>
    refine ends_pure ⟨rfl, fun k => ?_, rfl, rfl, fun k hk => .inl hk⟩
    rw [if_neg (by omega)]
  | succ left ih =>
    have haddress : u32 (sector + i) = sector + i := Nat.mod_eq_of_lt (by omega)
    let next : State := { s with
      accesses := s.accesses + 1
      written := (sector + i) :: s.written
      disk := assign s.disk (sector + i) (buf.drop (i * sectorSize)) }
    have hwrite : Ends (ataWriteSector m (u32 (sector + i)) (buf.drop (i * sectorSize))) s
        fun r t => r = true ∧ t = next := by
      refine ⟨true, next, ?_, rfl, rfl⟩
      simp only [ataWriteSector, hdisk, haddress]
      rfl
    refine hwrite.bind ?_
    rintro _ _ ⟨rfl, rfl⟩
    have hend' : sector + (i + 1) + left ≤ 2 ^ 32 := by omega
    refine (ih hend' next).imp ?_
    rintro r t ⟨rfl, hsectors, hhint, hlive, hwrote⟩
    refine ⟨rfl, fun k => ?_, hhint, hlive, fun k hk => ?_⟩
    · rw [hsectors k]
      by_cases hk : k = sector + i
      · subst hk
        rw [if_neg (by omega), if_pos (by omega), show sector + i - sector = i by omega]
        exact assign_same ..
      · by_cases hlater : sector + (i + 1) ≤ k ∧ k < sector + (i + 1) + left
        · rw [if_pos hlater, if_pos (by omega)]
        · rw [if_neg hlater, if_neg (by omega)]
          exact assign_of_ne _ _ hk
    · rcases hwrote k hk with hold | hnew
      · rcases List.mem_cons.mp hold with rfl | hold
        · exact .inr (by omega)
        · exact .inl hold
      · exact .inr (by omega)

theorem volume_setData (hg : Sane g) (hc : InRange g c) {buf : Memory}
    (hhint : t.lastAllocatedCluster = s.lastAllocatedCluster)
    (hdisk : ∀ k, t.disk k = if sectorOf g c ≤ k ∧ k < sectorOf g c + g.sectorsPerCluster then
      buf.drop ((k - sectorOf g c) * sectorSize) else s.disk k) :
    volume g t = (volume g s).setData c (clip g buf) := by
  ext1
  · -- the tables end before the first cluster
    funext d
    by_cases hd : InRange g d
    · have hentry := hg.entry_lt hd.2
      have hdata := hg.data
      have hsame : t.disk (g.fatStart + d / entriesPerSector) =
          s.disk (g.fatStart + d / entriesPerSector) := by
        rw [hdisk, if_neg]
        unfold sectorOf
        omega
      simp only [volume, Volume.setData, hd, if_true, fatEntry, hsame]
    · simp only [volume, Volume.setData, hd, if_false]
  · funext d x
    by_cases hx : InRange g d ∧ x < clusterSize g
    · have hsec : x / sectorSize < g.sectorsPerCluster :=
        (Nat.div_lt_iff_lt_mul (by decide)).mpr hx.2
      by_cases hdc : d = c
      · subst hdc
        simp only [volume, Volume.setData, hx, and_self, if_true, Function.update_self, clip, hdisk]
        rw [if_pos ⟨Nat.le_add_right .., Nat.add_lt_add_left hsec _⟩, Nat.add_sub_cancel_left]
        show buf (x / sectorSize * sectorSize + x % sectorSize) = buf x
        rw [Nat.div_add_mod']
      · have hother : ∀ q < g.sectorsPerCluster,
            t.disk (sectorOf g d + q) = s.disk (sectorOf g d + q) := by
          intro q hq
          rw [hdisk, if_neg]
          rcases sectorOf_disjoint hx.1 hc hdc with hpre | hafter <;> omega
        simp only [volume, Volume.setData, hx, and_self, if_true, hother _ hsec,
          Function.update_of_ne hdc]
    · by_cases hdc : d = c
      · subst hdc
        have hx' : ¬ x < clusterSize g := fun h => hx ⟨hc, h⟩
        simp only [volume, Volume.setData, Function.update_self, clip, hx', and_false, if_false]
      · simp only [volume, Volume.setData, hx, if_false, Function.update_of_ne hdc]
  · exact hhint

theorem beside_setData (hg : Sane g) (hc : InRange g c)
    (hdisk : ∀ k, ¬ (sectorOf g c ≤ k ∧ k < sectorOf g c + g.sectorsPerCluster) →
      t.disk k = s.disk k) : Beside g s t := by
  have hdata := hg.data
  have htables : ∀ k < g.dataStart, t.disk k = s.disk k := by
    intro k hk
    refine hdisk k fun hin => ?_
    unfold sectorOf at hin
    omega
  refine ⟨fun halike k hk i hi x hx => ?_, fun k hk => ?_, fun e _ hlt => ?_⟩
  · have hcopy : k * g.sectorsPerFat ≤ 1 * g.sectorsPerFat := by
      rw [hg.fats] at hk
      exact Nat.mul_le_mul_right _ (by omega)
    rw [htables _ (by omega), htables _ (by omega)]
    exact halike k hk i hi x hx
  · exact hdisk k fun hin => hk (.inr ⟨c, hc, hin⟩)
  · have hsec : e / entriesPerSector < g.sectorsPerFat := Nat.div_lt_of_lt_mul hlt
    unfold fatEntry
    rw [htables _ (by omega)]

theorem writeCluster_spec (hm : Ready m) (hc : InRange m c) (buf : Memory) (s : State) :
    Ends (writeCluster m c buf) s fun r t =>
      r = true ∧
      Effect m s t ((volume m s).setData c (clip m buf)) s.live := by
  have hsec := hm.sane.clusterToSector_eq hc
  have hpos := hm.sane.sectorOf_pos (c := c)
  have hend := hm.sane.sectorOf_add_le hc
  unfold writeCluster
  simp only [hsec]
  rw [if_neg (by rw [invalidCluster]; omega)]
  refine (writeSectors_spec hm.disk buf (by omega) s).imp ?_
  rintro r t ⟨rfl, hdisk, hhint, hlive, hwrote⟩
  refine ⟨rfl, volume_setData hm.sane hc hhint hdisk, hlive, fun k hk => ?_, ?_⟩
  · rcases hwrote k hk with hold | hnew
    · exact .inl hold
    · exact .inr (.inr ⟨c, hc, hnew⟩)
  · exact beside_setData hm.sane hc fun k hk => (hdisk k).trans (if_neg hk)

theorem Effect.readCluster (ht : Effect m s t v live) (hm : Ready m) (hc : InRange m c) :
    Ends (readCluster m c) t fun r u => r = some (v.data c) ∧ Effect m s u v live := by
  refine (readCluster_spec hm hc t).imp ?_
  rw [ht.volume, ht.live]
  rintro r u ⟨rfl, hu⟩
  exact ⟨rfl, ht.trans hu⟩

theorem Effect.writeCluster (ht : Effect m s t v live) (hm : Ready m) (hc : InRange m c)
    (buf : Memory) : Ends (writeCluster m c buf) t fun r u =>
      r = true ∧ Effect m s u (v.setData c (clip m buf)) live := by
  refine (writeCluster_spec hm hc buf t).imp ?_
  rw [ht.volume, ht.live]
  rintro r u ⟨rfl, hu⟩
  exact ⟨rfl, ht.trans hu⟩

end Taavi.Fat
