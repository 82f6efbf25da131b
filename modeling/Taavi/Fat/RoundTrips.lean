import Taavi.Fat.Contents
import Taavi.Fat.System

/-!
# Whole writes

A write at an offset is a splice, and what `fat32_write_file` has written is what `fat32_read_file`
reads. Nothing else on the volume changes.
-/

namespace Taavi.Fat

open Lib List

variable {m : Mount} {g : Geometry} {s t : State} {v v₀ : Volume} {live : List ℕ}
  {c f h i j : ℕ} {l : List ℕ} {buf : Memory} {start size written first prev : ℕ}

theorem Filled.begin (hfree : nextFree g v = some f) : Filled g v f [] 0 buf 0 (v.take f) [f] where
  chain := .last (by simp)
  grown := nil_prefix
  fresh e he := by
    rw [mem_singleton.mp he]
    exact .inr (free_of_nextFree hfree)
  room := by
    have hroom := room_take hfree
    simp only [length_singleton, length_nil]
    omega
  new x _ hx _ := absurd hx (Nat.not_lt_zero x)
  old x hx _ := absurd hx (by simp)
  cells e he := by
    rw [mem_singleton] at he
    simp [he]
  data _ _ := rfl

theorem Filled.setData (hfill : Filled g v₀ h [] 0 buf written v l) (hj : l[j]? = some c)
    (hwrote : written ≤ j * clusterSize g) (data : Memory) :
    Filled g v₀ h [] 0 buf written (v.setData c data) l := by
  refine ⟨hfill.chain, hfill.grown, hfill.fresh, ?_, ?_, ?_, hfill.cells, ?_⟩
  · rw [room_setData]
    exact hfill.room
  · intro x hlo hhi hx
    have hlt := div_lt_length hx
    have hpre : x / clusterSize g < j := Nat.div_lt_of_lt_mul (by rw [mul_comm]; omega)
    obtain ⟨hjlt, hjc⟩ := List.getElem?_eq_some_iff.mp hj
    have hne : l[x / clusterSize g] ≠ c := by
      intro heq
      have hsame := hfill.chain.nodup.getElem_inj_iff.mp (heq.trans hjc.symm)
      omega
    rw [← hfill.new x hlo hhi hx, content, content, getD_eq_getElem _ _ hlt,
      Volume.setData_data, Function.update_of_ne hne]
  · exact fun x hx => absurd hx (by simp)
  · intro e he
    have hne : e ≠ c := by
      rintro rfl
      exact he (mem_of_getElem? hj)
    rw [Volume.setData_data, Function.update_of_ne hne]
    exact hfill.data e he

theorem Filled.chunk (hg : Sane g) (hfill : Filled g v₀ h [] 0 buf (j * clusterSize g) v l)
    (hj : l[j]? = some c) (hmore : j * clusterSize g < size) :
    Filled g v₀ h [] 0 buf (min size ((j + 1) * clusterSize g))
      (v.setData c (clip g (Memory.splice (fun _ => 0) 0 (buf.drop (j * clusterSize g))
        (min (clusterSize g) (size - j * clusterSize g))))) l := by
  have hzero := hfill.setData hj le_rfl fun _ => 0
  have hstage : Filled g v₀ h [] 0 buf _
      ((v.setData c fun _ => 0).stage g buf size c 0 (j * clusterSize g)) l :=
    hzero.stage hg hj hg.clusterSize_pos (by omega)
  have hbytes : j * clusterSize g + min (size - j * clusterSize g) (clusterSize g - 0) =
      min size ((j + 1) * clusterSize g) := by
    rw [Nat.succ_mul]
    omega
  have hagain : ∀ data, (v.setData c fun _ => 0).setData c data = v.setData c data :=
    fun _ => Volume.ext rfl (Function.update_idem ..) rfl
  rwa [hbytes, Volume.stage, Volume.setData_data, Function.update_self, Nat.sub_zero,
    Nat.min_comm (size - _), hagain] at hstage

/-- A file of `i` clusters that were free, with the first bytes of the buffer, has been begun. -/
def NewFile (g : Geometry) (s t : State) (buf : Memory) (size i first prev : ℕ) : Prop :=
  ∃ l, l.length = i ∧ EntriesKept g l s t ∧
    ((l = [] ∧ first = 0 ∧ prev = 0 ∧ volume g t = volume g s) ∨
      (Filled g (volume g s) first [] 0 buf (min size (i * clusterSize g)) (volume g t) l ∧
        prev ∈ l ∧ (volume g t).cells prev = .last))

theorem setPrev_fills (hm : Ready m) (hheap : ¬HeapFails m) {u : State}
    (hfile : NewFile m s t buf size i first prev) (hmore : i * clusterSize m < size)
    (hfree : nextFree m (volume m t) = some f)
    (hu : Effect m s u ((volume m t).take f) live) (hkept : EntriesKept m [f] t u) :
    Ends (setPrev m prev f) u fun r w => r = true ∧ Effect m s w (volume m w) live ∧
      ∃ l, l.length = i + 1 ∧ EntriesKept m l s w ∧ l[i]? = some f ∧
        Filled m (volume m s) (if first = 0 then f else first) [] 0 buf (i * clusterSize m)
          (volume m w) l ∧ (volume m w).cells f = .last := by
  have hcell := free_of_nextFree hfree
  have hf := (Effect.refl m t).inRange_of_nextFree hfree
  obtain ⟨l, hlen, hsame, ⟨rfl, rfl, rfl, hvol⟩ | ⟨hfill, hmem, hlast⟩⟩ := hfile
  · obtain rfl : 0 = i := hlen
    rw [hvol] at hfree hu
    refine ends_pure ⟨rfl, hu.volume.symm ▸ hu, [f], rfl, ?_, rfl, ?_, ?_⟩
    · exact hsame.trans hkept (nil_subset _) (List.Subset.refl _)
    · rw [if_pos rfl, hu.volume, zero_mul]
      exact .begin hfree
    · simp [hu.volume]
  · have hprev : InRange m prev := inRange_of_used (.inl hlast)
    have hprev₀ : prev ≠ 0 := fun h => absurd hprev.1 (by omega)
    have hfst₀ : first ≠ 0 := fun h => absurd (inRange_of_used hfill.chain.used).1 (by omega)
    have hne := (Used.ne (.inl hlast) hcell).symm
    have hsmall := hm.sane.lt_of_inRange hf
    obtain ⟨j, hj⟩ := mem_iff_getElem?.mp hmem
    rw [Nat.min_eq_right hmore.le] at hfill
    rw [setPrev, if_neg hprev₀]
    refine (setCluster_spec hm hprev hsmall u).imp ?_
    rw [hu.volume, hu.live, hm.sane.cellOf_inRange hf]
    rintro _ w (⟨rfl, hw, hlinked⟩ | ⟨rfl, hfail, -⟩)
    · replace hw : Effect m s w ((volume m t).append prev f) live := hu.trans hw
      refine ⟨rfl, hw.volume.symm ▸ hw, l ++ [f], by simp [hlen], ?_, by simp [← hlen], ?_, ?_⟩
      · have hlater := hkept.trans hlinked (k := [f, prev]) (by simp) (by simp)
        exact hsame.trans hlater (subset_append_left l [f]) (by simp [hmem])
      · rw [if_neg hfst₀, hw.volume]
        exact hfill.append hj hlast hfree (by rw [hlen]; omega)
      · rw [hw.volume]
        simp [Volume.append, hne]
    · exact absurd hfail hheap

theorem writeClusters_fills (hm : Ready m) (hheap : ¬HeapFails m) {left : ℕ}
    (hfile : NewFile m s t buf size i first prev) (hmore : ∀ j < i + left, j * clusterSize m < size)
    (hroom : i + left ≤ room m (volume m s)) (ht : Effect m s t (volume m t) live) :
    Ends (writeClusters m buf size left i first prev) t fun r u =>
      Effect m s u (volume m u) live ∧
        ∃ first' prev', r = some (first', prev') ∧
          NewFile m s u buf size (i + left) first' prev' := by
  induction left generalizing i first prev t with
  | zero => exact ends_pure ⟨ht, first, prev, rfl, hfile⟩
  | succ left ih =>
    have hleft : 0 < room m (volume m t) := by
      obtain ⟨l, hlen, -, ⟨-, -, -, hvol⟩ | ⟨hfill, -⟩⟩ := hfile
      · rw [hvol]
        omega
      · have hrest := hfill.room
        simp only [length_nil] at hrest
        omega
    obtain ⟨f, hfree⟩ := exists_nextFree hleft
    have hf : InRange m f := ht.inRange_of_nextFree hfree
    have hpos := hf.ne_invalid
    unfold writeClusters
    refine (allocCluster_spec hm hfree).bind ?_
    rw [ht.live]
    rintro cluster u (⟨rfl, hu, htaken⟩ | ⟨rfl, hfail, -⟩)
    · rw [if_neg hpos]
      refine (setPrev_fills hm hheap hfile (hmore i (by omega)) hfree (ht.trans hu) htaken).bind ?_
      rintro _ w ⟨rfl, hw, l, hlen, hkept, hi, hfill, hlast⟩
      rw [if_pos rfl]
      refine ((writeCluster_spec hm hf _ w).and (writeCluster_entries hm hf _ w)).bind ?_
      rintro _ x ⟨⟨rfl, hx⟩, hsame⟩
      have hchunk := hfill.chunk hm.sane hi (hmore i (by omega))
      rw [← hx.volume] at hchunk
      rw [if_pos rfl]
      rw [hw.live] at hx
      have hlast' : (volume m x).cells cluster = .last := by
        rw [hx.volume]
        exact hlast
      have hnext : NewFile m s x buf size (i + 1) _ cluster := ⟨l, hlen, hkept.trans hsame
        (List.Subset.refl l) (nil_subset l), .inr ⟨hchunk, mem_of_getElem? hi, hlast'⟩⟩
      have hrest := ih hnext (by rwa [add_right_comm]) (by omega) (hx.volume.symm ▸ hw.trans hx)
      rwa [add_right_comm] at hrest
    · exact absurd hfail hheap

theorem writeFile_fills (hm : Ready m) (hheap : ¬HeapFails m) (buf : Memory) (hpos : 0 < size)
    (hsize : size ≤ 2 ^ 32 - clusterSize m)
    (hroom : (size + (clusterSize m - 1)) / clusterSize m ≤ room m (volume m s)) :
    Ends (writeFile m buf size) s fun r t => ∃ l,
      Filled m (volume m s) r [] 0 buf size (volume m t) l ∧
        l.length = (size + (clusterSize m - 1)) / clusterSize m ∧
        size ≤ l.length * clusterSize m ∧ EntriesKept m l s t := by
  have hclus := hm.sane.clusterSize_pos
  have hwrap : u32 (size + (clusterSize m - 1)) = size + (clusterSize m - 1) :=
    Nat.mod_eq_of_lt (by omega)
  have hcover : size ≤ (size + (clusterSize m - 1)) / clusterSize m * clusterSize m := by
    have hsplit := Nat.div_add_mod' (size + (clusterSize m - 1)) (clusterSize m)
    have hmod := Nat.mod_lt (size + (clusterSize m - 1)) hclus
    omega
  refine ((allocateBuffer_spec m s).and (reads_allocateBuffer m s)).bind ?_
  rintro _ t ⟨⟨rfl, hfail, ht⟩ | ⟨block, rfl, ht⟩, hdisk⟩
  · exact absurd hfail hheap
  · have hstart : NewFile m s t buf size 0 0 0 :=
      ⟨[], rfl, .of_disk hdisk, .inl ⟨rfl, rfl, rfl, ht.volume⟩⟩
    dsimp only
    rw [hwrap]
    refine (writeClusters_fills hm hheap hstart ?_ (by rwa [zero_add])
      (ht.volume.symm ▸ ht)).bind ?_
    · intro j hj
      rw [zero_add, Nat.lt_div_iff_mul_lt hclus] at hj
      omega
    rw [zero_add]
    rintro _ u ⟨hu, first, prev, rfl, l, hlen, hkept, ⟨rfl, -⟩ | ⟨hfill, hmem, hlast⟩⟩
    · rw [← hlen] at hcover
      simp at hcover
      omega
    · rw [Nat.min_eq_left hcover] at hfill
      have hprev₀ : prev ≠ 0 := fun h => absurd (inRange_of_used (.inl hlast)).1 (by omega)
      dsimp only
      rw [setPrev, if_neg hprev₀]
      refine (setCluster_of_last hm hlast).bind ?_
      rw [hu.live]
      rintro _ w ⟨hw, ⟨rfl, hended⟩ | ⟨rfl, hfail⟩⟩
      · refine (hw.kfree.and (reads_kfree block w)).bind ?_
        rintro _ x ⟨hx, hfreed⟩
        refine ends_pure ⟨l, ?_, hlen, by rwa [hlen], ?_⟩
        · rw [hx.volume]
          exact hfill
        · exact hkept.trans (hended.of_disks rfl hfreed) (List.Subset.refl l) (by simp [hmem])
      · exact absurd hfail hheap

/-- All bytes are read, from the clusters that the table leads to. -/
def ReadFully (g : Geometry) (s : State) (c size : ℕ) (filled : Memory) : Prop :=
  Covers g s c size ∧ ∀ x < size, filled x =
    (volume g s).data (walk g s c (x / clusterSize g)) (x % clusterSize g)

/-- Whatever fails, the reads of `fat32_read_file` that succeed are complete exactly if there are
enough clusters, or a number without a sector comes before an end of the chain. That it returns is
in `readFile_outcome`. -/
theorem read_is_complete_iff (hg : Sane g) (s : State) (c size : ℕ) :
    (∀ m : Mount, m.toGeometry = g → ∀ fuel buf filled t,
        readFile m fuel c size buf s = some (some filled, t) → ReadFully g s c size filled) ↔
      Covers g s c size ∨ ∃ k, (k = 0 ∨ k * clusterSize g < size) ∧ Passes g s c k ∧
        clusterToSector g (walk g s c k) = invalidCluster := by
  constructor
  · intro hall
    let m : Mount := { g with diskFails := fun _ => false, heapFails := fun _ => false }
    obtain ⟨r, t, hrun, -, houtcome⟩ := readFile_outcome (m := m) (c := c) hg.clusterSize_pos
      (Nat.lt_succ_self size) (fun _ => 0) s
    rcases houtcome with ⟨⟨n, hn⟩ | ⟨n, hn⟩⟩ | ⟨hk, hpassed, hsector⟩ | _
    · cases hn
    · cases hn
    · exact .inr ⟨_, hk, hpassed, hsector⟩
    · exact .inl (hall m rfl _ _ _ t hrun).1
  · rintro hcases m rfl fuel buf filled t hrun
    obtain ⟨r, t', hrun', -, houtcome⟩ := readFile_outcome (m := m) (c := c) hg.clusterSize_pos
      (Nat.lt_succ_self size) buf s
    obtain ⟨rfl, -⟩ := Prod.mk.inj ((grows_readFile m c size buf).agree hrun' hrun)
    rcases hcases with hcovers | ⟨j, hj, hpassed, hnone⟩
    · exact ⟨hcovers, houtcome.bytes hg hcovers⟩
    · cases houtcome with
      | @read _ k hpassed' hsector hend =>
        exfalso
        rcases lt_trichotomy j k with hlt | rfl | hgt
        · exact (hpassed' j hlt).1 hnone
        · exact hsector hnone
        · have hinner := (hpassed k hgt).2
          have hmul : (k + 1) * clusterSize m.toGeometry ≤ j * clusterSize m.toGeometry :=
            Nat.mul_le_mul_right _ hgt
          omega

/-- The root directory of the small volume is read. -/
theorem root_read_is_complete : Sane (smallGeometry 4) ∧
    ∀ m : Mount, m.toGeometry = smallGeometry 4 → ∀ fuel buf filled t,
    readFile m fuel 2 512 buf emptyStart = some (some filled, t) →
      ReadFully (smallGeometry 4) emptyStart 2 512 filled := by
  have hg : Sane (smallGeometry 4) := (ready_smallMount (by decide)).sane
  refine ⟨hg, (read_is_complete_iff hg emptyStart 2 512).mpr (.inl ?_)⟩
  intro k hk
  obtain rfl : k = 0 := by
    have hsize : clusterSize (smallGeometry 4) = 512 := rfl
    rw [hsize] at hk
    omega
  exact (by decide : InRange (smallGeometry 4) 2)

/-- More bytes than the root directory has are read with success. -/
theorem short_read_succeeds : ∃ filled t,
    readFile (smallMount 4) 2 2 513 (fun _ => 0) emptyStart = some (some filled, t) ∧
      ¬ReadFully (smallGeometry 4) emptyStart 2 513 filled := by
  have hevaluated : (readFile (smallMount 4) 2 2 513 (fun _ => 0) emptyStart).any
      (fun r => r.1.isSome) = true := by decide +kernel
  obtain ⟨⟨r, t⟩, hrun, hsome⟩ := Option.any_eq_true _ _ |>.mp hevaluated
  obtain ⟨filled, rfl⟩ := Option.isSome_iff_exists.mp hsome
  refine ⟨filled, t, hrun, fun hfully => ?_⟩
  have hnext := hfully.1 1 (.inr (by decide))
  revert hnext
  decide +kernel

end Taavi.Fat
