import Taavi.X64.Growth

/-!
# The region of the kernel stacks

Only `vmm_alloc` maps the pages of the kernel stacks, and only `vmm_free` and the rollback unmap
them. Their frames are different, in use, and no tables.
-/

namespace Taavi.X64

open Lib X64.Pmm
open Paging (Machine invalidPhysicalPage pagePresent pageRw)

def regionPages : ℕ := maxTasks * (kernelStackPages + 1)

def regionPage (n : ℕ) : ℕ := kstackRegionBase + n * pageSize

def kstackFlags : ℕ := pageRw ||| pageNx

def stackEntry (f : ℕ) : ℕ := f * pageSize ||| kstackFlags ||| pagePresent

structure Region (roots : ℕ → Prop) (dir : ℕ) (s : Machine Pmm.State) (frame : ℕ → Option ℕ) :
    Prop where
  tables : Tables roots s
  steady : Steady s.pmm
  tablesUsed : TablesUsed roots s
  kernel : s.kernelPageDir = dir
  nonzero : dir ≠ 0
  leaves : ∀ n < regionPages, leafOf s.mem dir (regionPage n) =
    (frame n).map fun f => (stackEntry f, false)
  held : ∀ n f, frame n = some f →
    f < s.pmm.maxPages ∧ pmmTestBit s.pmm f = true ∧ ¬Reached tableOf 3 roots s.mem f
  unique : ∀ n n' f, frame n = some f → frame n' = some f → n = n'
  inside : ∀ n f, frame n = some f → n < regionPages

def withoutRange (frame : ℕ → Option ℕ) (first count n : ℕ) : Option ℕ :=
  if first ≤ n ∧ n < first + count then none else frame n

variable {roots : ℕ → Prop} {s t : Machine Pmm.State} {dir n f first count : ℕ}
  {frame frame' : ℕ → Option ℕ}

theorem regionPage_lt (hn : n < regionPages) : regionPage n < 2 ^ 64 := by
  unfold regionPages maxTasks kernelStackPages at hn
  unfold regionPage kstackRegionBase pageSize
  omega

theorem isCanonical_regionPage (hn : n < regionPages) : isCanonical (regionPage n) = true := by
  refine (isCanonical_iff (regionPage_lt hn)).mpr (.inr ?_)
  unfold regionPage kstackRegionBase
  omega

theorem regionPage_mod (n : ℕ) : regionPage n % pageSize = 0 := by
  unfold regionPage kstackRegionBase pageSize
  omega

theorem regionPage_div {m : ℕ} : regionPage m / pageSize = regionPage n / pageSize ↔ m = n := by
  unfold regionPage kstackRegionBase pageSize
  omega

theorem regionPage_succ (hn : n < regionPages) :
    (regionPage n + pageSize) % 2 ^ 64 = regionPage (n + 1) := by
  unfold regionPages maxTasks kernelStackPages at hn
  unfold regionPage kstackRegionBase pageSize
  omega

theorem Region.isRoot (h : Region roots dir s frame) : roots dir := h.kernel ▸ h.tables.kernel

theorem Region.grow (h : Region roots dir s frame) (hkept : Kept roots s t)
    (hgrown : Grown roots s t) : Region roots dir t frame where
  tables := hkept.tables
  steady := hgrown.steady
  tablesUsed := hgrown.tablesUsed h.tablesUsed
  kernel := hkept.kernel.trans h.kernel
  nonzero := h.nonzero
  leaves n hn := (hkept.leaves.leafOf_eq h.isRoot _).trans (h.leaves n hn)
  held n f hf := by
    obtain ⟨hlt, hused, hnot⟩ := h.held n f hf
    exact ⟨hgrown.maxPages.symm ▸ hlt, hgrown.used f hused, hgrown.not_reached hused hnot⟩
  unique := h.unique
  inside := h.inside

theorem Region.not_held (h : Region roots dir s frame) (hfree : pmmTestBit s.pmm f = false) :
    (∀ n, frame n ≠ some f) ∧ ¬Reached tableOf 3 roots s.mem f := by
  refine ⟨fun n hn => ?_, fun hreach => ?_⟩
  · rw [(h.held n f hn).2.1] at hfree
    cases hfree
  · rw [h.tablesUsed f hreach] at hfree
    cases hfree

theorem Region.take (h : Region roots dir s frame) (hgiven : Given s.pmm f) :
    Region roots dir (clearFrame { s with pmm := (pmmAlloc s.pmm).2 } f) frame := by
  obtain ⟨-, hnot⟩ := h.not_held hgiven.free
  have hagree : ∀ g, g ≠ f → assign s.mem f (fun _ => 0) g = s.mem g :=
    fun g hg => assign_of_ne s.mem _ hg
  have hreach : ∀ g, Reached tableOf 3 roots (assign s.mem f fun _ => 0) g ↔
      Reached tableOf 3 roots s.mem g := fun g =>
    reached_congr fun root path hroot hlen => walk_of_agree hnot hagree hroot hlen
  exact { h with
    tables := h.tables.clearFrame hnot _
    steady := h.steady.alloc
    tablesUsed := fun g hg => h.steady.used_alloc (h.tablesUsed g ((hreach g).mp hg))
    leaves := fun n hn => (leafOf_assign hnot h.isRoot _ _).trans (h.leaves n hn)
    held := fun n g hg => by
      obtain ⟨hlt, hused, hunreach⟩ := h.held n g hg
      exact ⟨h.steady.maxPages_alloc.symm ▸ hlt, h.steady.used_alloc hused,
        fun hreached => hunreach ((hreach g).mp hreached)⟩ }

theorem Replaced.region {leaf : Option (ℕ × Bool)} {m : ℕ}
    (h : Replaced roots s t dir (regionPage n) pageSize leaf) (hdir : roots dir)
    (hm : m < regionPages) : leafOf t.mem dir (regionPage m) =
      if m = n then leaf else leafOf s.mem dir (regionPage m) := by
  rw [h.leaves dir _ hdir (regionPage_lt hm) (isCanonical_regionPage hm)]
  simp only [regionPage_div, true_or, true_and]

theorem Region.enter (h : Region roots dir s frame) (hn : n < regionPages)
    (hreplaced : Replaced roots s t dir (regionPage n) pageSize (some (stackEntry f, false)))
    (hgrown : Grown roots s t) (hlt : f < s.pmm.maxPages) (hused : pmmTestBit s.pmm f = true)
    (hnot : ¬Reached tableOf 3 roots s.mem f) (hnew : ∀ m, frame m ≠ some f) :
    Region roots dir t (assign frame n (some f)) where
  tables := hreplaced.tables
  steady := hgrown.steady
  tablesUsed := hgrown.tablesUsed h.tablesUsed
  kernel := hreplaced.kernel.trans h.kernel
  nonzero := h.nonzero
  leaves m hm := by
    rw [hreplaced.region h.isRoot hm, assign_apply]
    split_ifs
    · rfl
    · exact h.leaves m hm
  held m g hg := by
    have hg' : g = f ∨ frame m = some g := by
      rw [assign_apply] at hg
      split_ifs at hg
      · exact .inl (Option.some.inj hg).symm
      · exact .inr hg
    have hold : g < s.pmm.maxPages ∧ pmmTestBit s.pmm g = true ∧ ¬Reached tableOf 3 roots s.mem g := by
      rcases hg' with rfl | hg'
      · exact ⟨hlt, hused, hnot⟩
      · exact h.held m g hg'
    exact ⟨hgrown.maxPages.symm ▸ hold.1, hgrown.used g hold.2.1,
      hgrown.not_reached hold.2.1 hold.2.2⟩
  unique m m' g hg hg' := by
    rw [assign_apply] at hg hg'
    split_ifs at hg hg' with hmn hmn' hmn'
    · rw [hmn, hmn']
    · exact absurd (hg'.trans hg.symm) (hnew m')
    · exact absurd (hg.trans hg'.symm) (hnew m)
    · exact h.unique m m' g hg hg'
  inside m g hg := by
    rw [assign_apply] at hg
    split_ifs at hg with hmn
    · exact hmn ▸ hn
    · exact h.inside m g hg

theorem Region.mapPage (h : Region roots dir s frame) (hgiven : Given s.pmm f)
    (hn : n < regionPages) {result : Machine Pmm.State × Bool}
    (hresult : pagingMap pmmAlloc (clearFrame { s with pmm := (pmmAlloc s.pmm).2 } f) dir
      (regionPage n) (f * pageSize) kstackFlags = result) :
    (∃ t, result = (t, true) ∧ Region roots dir t (assign frame n (some f))) ∨
      ∃ t, result = (t, false) ∧ Region roots dir t frame := by
  obtain ⟨hnew, hfree⟩ := h.not_held hgiven.free
  have htaken := h.take hgiven
  have hlt : f < (pmmAlloc s.pmm).2.maxPages := h.steady.maxPages_alloc.symm ▸ hgiven.lt
  have hnot : ¬Reached tableOf 3 roots (assign s.mem f fun _ => 0) f := by
    rwa [reached_congr fun root path hroot hlen =>
      walk_of_agree hfree (fun g hg => assign_of_ne s.mem _ hg) hroot hlen]
  have hflags : kstackFlags.testBit 2 = true → regionPage n < 2 ^ 47 :=
    fun hset => absurd hset (by decide)
  have hgrown := htaken.tables.pagingMap_grown htaken.steady htaken.tablesUsed htaken.isRoot
    (regionPage_lt hn) hflags (f * pageSize)
  have hdoes := htaken.tables.pagingMap htaken.isRoot (regionPage_lt hn) hflags
    (freshAnswers_pmmAlloc htaken.steady htaken.tablesUsed) (f * pageSize)
  rw [hresult] at hgrown hdoes
  rcases hdoes with ⟨t, rfl, hkept⟩ | ⟨t, rfl, hreplaced⟩
  · exact .inr ⟨t, rfl, htaken.grow hkept hgrown⟩
  · exact .inl ⟨t, rfl, htaken.enter hn hreplaced hgrown hlt hgiven.used hnot hnew⟩

theorem Region.stackEntry_and (h : Region roots dir s frame) (hf : frame n = some f) :
    stackEntry f &&& pageFrameMask = f * pageSize := by
  have hlt : f * pageSize < 2 ^ 52 := by
    have hmax := (h.held n f hf).1
    have hfew := h.steady.few
    unfold pageSize
    omega
  rw [stackEntry, Nat.or_assoc, or_and_pageFrameMask (Nat.dvd_mul_left _ _) hlt (by decide)]

theorem Region.pagingGetPhys_eq (h : Region roots dir s frame) (hf : frame n = some f) :
    pagingGetPhys s dir (regionPage n) = f * pageSize := by
  have hends := h.tables.walkEnds h.isRoot (regionPage n)
  rw [h.leaves n (h.inside n f hf), hf] at hends
  rw [hends.pagingGetPhys_eq, Option.map_some, Option.map_some, Option.getD_some,
    h.stackEntry_and hf, sizeOf, if_neg Bool.false_ne_true, regionPage_mod, add_zero]

theorem Region.release (h : Region roots dir s frame) (hf : frame n = some f) :
    ∃ mem, (∀ pmm, pagingUnmap pmmAlloc { s with pmm } dir (regionPage n) =
        ({ s with mem, pmm }, true)) ∧
      Region roots dir { s with mem, pmm := (pmmFree s.pmm (f * pageSize)).1 }
        (assign frame n none) := by
  have hn := h.inside n f hf
  obtain ⟨hlt, -, hnot⟩ := h.held n f hf
  have hleaf : leafOf s.mem dir (regionPage n) = some (stackEntry f, false) := by
    rw [h.leaves n hn, hf, Option.map_some]
  obtain ⟨table, hwalk, hunmap⟩ := pagingUnmap_eq (regionPage_mod n) hleaf
  have hreach : ∀ g, Reached tableOf 3 roots (storeWord s.mem table (ptIndex (regionPage n)) 0) g ↔
      Reached tableOf 3 roots s.mem g := fun g => reached_congr fun root path hroot hlen =>
    walk_storeWord h.tables.tree h.isRoot (le_refl 3) hwalk (.inr (le_refl 3)) hroot hlen
  have hbits : ∀ g, g ≠ f → pmmTestBit s.pmm g = true →
      pmmTestBit (pmmFree s.pmm (f * pageSize)).1 g = true := by
    intro g hg hused
    rw [pmmTestBit_giveBack hlt, hused, decide_eq_true hg, Bool.true_and]
  refine ⟨_, hunmap, ?_⟩
  have hdoes := (h.tables.with_pmm (pmmFree s.pmm (f * pageSize)).1).pagingUnmap h.isRoot
    (regionPage_lt hn) (isCanonical_regionPage hn) pmmAlloc
  rw [hunmap] at hdoes
  rcases hdoes with ⟨t, heq, -⟩ | ⟨t, heq, hreplaced⟩
  · cases (Prod.mk.inj heq).2
  obtain rfl := (Prod.mk.inj heq).1
  exact { h with
    tables := hreplaced.tables
    steady := h.steady.free_call _
    tablesUsed := fun g hg => by
      have hreached := (hreach g).mp hg
      refine hbits g ?_ (h.tablesUsed g hreached)
      rintro rfl
      exact hnot hreached
    leaves := fun m hm => by
      rw [hreplaced.region h.isRoot hm, assign_apply]
      split_ifs
      · rfl
      · exact h.leaves m hm
    held := fun m g hg => by
      rw [assign_apply] at hg
      split_ifs at hg with hmn
      obtain ⟨hglt, hused, hunreach⟩ := h.held m g hg
      have hne : g ≠ f := by
        rintro rfl
        exact hmn (h.unique m n g hg hf)
      exact ⟨(maxPages_pmmFree s.pmm _).symm ▸ hglt, hbits g hne hused,
        fun hreached => hunreach ((hreach g).mp hreached)⟩
    unique := fun m m' g hg hg' => by
      rw [assign_apply] at hg hg'
      split_ifs at hg hg'
      exact h.unique m m' g hg hg'
    inside := fun m g hg => by
      rw [assign_apply] at hg
      split_ifs at hg
      exact h.inside m g hg }

theorem mul_pageSize_ne_invalid (f : ℕ) : f * pageSize ≠ invalidPhysicalPage := by
  unfold pageSize invalidPhysicalPage
  omega

theorem withoutRange_zero (frame : ℕ → Option ℕ) (first : ℕ) : withoutRange frame first 0 = frame := by
  funext n
  rw [withoutRange, if_neg (by omega)]

theorem withoutRange_last (frame : ℕ → Option ℕ) (first count : ℕ) :
    withoutRange (assign frame (first + count) none) first count =
      withoutRange frame first (count + 1) := by
  funext n
  unfold withoutRange
  rw [assign_apply]
  split_ifs <;> first | rfl | omega

theorem withoutRange_first (frame : ℕ → Option ℕ) (first count : ℕ) :
    withoutRange (assign frame first none) (first + 1) count =
      withoutRange frame first (count + 1) := by
  funext n
  unfold withoutRange
  rw [assign_apply]
  split_ifs <;> first | rfl | omega

theorem Region.vmmRollback {fuel : ℕ} (h : Region roots dir s frame)
    (hsome : ∀ j < count, (frame (first + j)).isSome) (hfuel : count ≤ fuel) :
    Region roots dir
      (X64.vmmRollback pmmAlloc pmmFree dir (regionPage first) fuel s (regionPage (first + count)))
      (withoutRange frame first count) := by
  induction count generalizing s frame fuel with
  | zero =>
    have hstop : X64.vmmRollback pmmAlloc pmmFree dir (regionPage first) fuel s
        (regionPage (first + 0)) = s := by
      cases fuel with
      | zero => rfl
      | succ fuel => exact if_neg (by rw [add_zero]; exact lt_irrefl _)
    rw [hstop, withoutRange_zero]
    exact h
  | succ count ih =>
    obtain ⟨fuel, rfl⟩ : ∃ k, fuel = k + 1 := ⟨fuel - 1, by omega⟩
    obtain ⟨f, hf⟩ := Option.isSome_iff_exists.mp (hsome count (Nat.lt_succ_self count))
    have hbelow : regionPage first < regionPage (first + (count + 1)) := by
      unfold regionPage pageSize
      omega
    have hvirt : regionPage (first + (count + 1)) - pageSize = regionPage (first + count) := by
      unfold regionPage pageSize
      omega
    obtain ⟨mem, hunmap, hnext⟩ := h.release hf
    rw [X64.vmmRollback, if_pos hbelow]
    dsimp only
    rw [hvirt, h.pagingGetPhys_eq hf, if_pos (mul_pageSize_ne_invalid f), hunmap,
      ← withoutRange_last]
    refine ih hnext (fun j hj => ?_) (by omega)
    rw [assign_of_ne _ _ (by omega)]
    exact hsome j (by omega)

theorem Region.rollback_at {done : ℕ} (h : Region roots dir s frame)
    (hdone : ∀ j < done, (frame (first + j)).isSome)
    (hleft : ∀ j < count, frame (first + (done + j)) = none) : Region roots dir
      (X64.vmmRollback pmmAlloc pmmFree dir (regionPage first) (regionPage (first + done) / pageSize)
        s (regionPage (first + done))) (withoutRange frame first (done + count)) := by
  have hfuel : done ≤ regionPage (first + done) / pageSize := by
    unfold regionPage kstackRegionBase pageSize
    omega
  have hsame : withoutRange frame first done = withoutRange frame first (done + count) := by
    funext n
    unfold withoutRange
    by_cases hn : first ≤ n ∧ n < first + done
    · rw [if_pos hn, if_pos (by omega)]
    · rw [if_neg hn]
      split_ifs with hn'
      · have hnone := hleft (n - (first + done)) (by omega)
        rwa [show first + (done + (n - (first + done))) = n by omega] at hnone
      · rfl
  rw [← hsame]
  exact h.vmmRollback hdone hfuel

theorem Region.vmmAllocLoop {done : ℕ} (h : Region roots dir s frame)
    (hdone : ∀ j < done, (frame (first + j)).isSome)
    (hleft : ∀ j < count, frame (first + (done + j)) = none)
    (hend : first + (done + count) ≤ regionPages) {result : Machine Pmm.State × Bool}
    (hresult : X64.vmmAllocLoop pmmAlloc pmmFree dir (regionPage first) kstackFlags count s
      (regionPage (first + done)) = result) :
    (∃ t frame', result = (t, true) ∧ Region roots dir t frame' ∧
      (∀ j < done + count, (frame' (first + j)).isSome) ∧
      ∀ n, n < first ∨ first + (done + count) ≤ n → frame' n = frame n) ∨
    ∃ t, result = (t, false) ∧ Region roots dir t (withoutRange frame first (done + count)) := by
  induction count generalizing s frame done with
  | zero => exact .inl ⟨s, frame, hresult.symm, h, hdone, fun _ _ => rfl⟩
  | succ count ih =>
    have hn : first + done < regionPages := by omega
    rw [X64.vmmAllocLoop] at hresult
    dsimp only at hresult
    by_cases hzero : (pmmAlloc s.pmm).1 = 0
    · rw [if_pos hzero] at hresult
      have hsame : Region roots dir { s with pmm := (pmmAlloc s.pmm).2 } frame :=
        h.grow ⟨h.tables.with_pmm _, rfl, SameLeaves.refl _ _⟩
          ⟨fun _ => .inl, fun _ => h.steady.used_alloc, h.steady.alloc, h.steady.maxPages_alloc⟩
      exact .inr ⟨_, hresult.symm, hsame.rollback_at hdone hleft⟩
    rw [if_neg hzero] at hresult
    obtain ⟨f, hgiven⟩ := h.steady.exists_given hzero
    rw [hgiven.div, hgiven.addr] at hresult
    rcases h.mapPage hgiven hn rfl with ⟨t, heq, ht⟩ | ⟨t, heq, ht⟩
    · rw [heq] at hresult
      dsimp only at hresult
      rw [regionPage_succ hn, add_assoc] at hresult
      have hdone' : ∀ j < done + 1, (assign frame (first + done) (some f) (first + j)).isSome := by
        intro j hj
        rw [assign_apply]
        split_ifs
        · rfl
        · exact hdone j (by omega)
      have hleft' : ∀ j < count,
          assign frame (first + done) (some f) (first + (done + 1 + j)) = none := by
        intro j hj
        rw [assign_of_ne _ _ (by omega), add_assoc, add_comm 1]
        exact hleft (j + 1) (by omega)
      have hrest := ih ht hdone' hleft' (by omega) hresult
      rw [add_assoc, add_comm 1] at hrest
      rcases hrest with ⟨u, frame', hu, hreg, hsome, hother⟩ | ⟨u, hu, hreg⟩
      · refine .inl ⟨u, frame', hu, hreg, hsome, fun n hout => ?_⟩
        rw [hother n hout, assign_of_ne _ _ (by omega)]
      · refine .inr ⟨u, hu, ?_⟩
        have hsame : withoutRange (assign frame (first + done) (some f)) first (done + (count + 1)) =
            withoutRange frame first (done + (count + 1)) := by
          funext n
          unfold withoutRange
          split_ifs
          · rfl
          · rw [assign_of_ne _ _ (by omega)]
        rwa [hsame] at hreg
    · rw [heq] at hresult
      exact .inr ⟨_, hresult.symm, ht.rollback_at hdone hleft⟩

theorem Region.vmmFreeLoop (h : Region roots dir s frame)
    (hsome : ∀ j < count, (frame (first + j)).isSome) :
    Region roots dir (X64.vmmFreeLoop pmmAlloc pmmFree dir count s (regionPage first))
        (withoutRange frame first count) ∧
      ∀ q, pmmTestBit (X64.vmmFreeLoop pmmAlloc pmmFree dir count s (regionPage first)).pmm q = true ↔
        pmmTestBit s.pmm q = true ∧ ∀ j < count, frame (first + j) ≠ some q := by
  induction count generalizing s frame first with
  | zero =>
    rw [withoutRange_zero]
    exact ⟨h, fun q => by simp [X64.vmmFreeLoop]⟩
  | succ count ih =>
    obtain ⟨f, hf⟩ := Option.isSome_iff_exists.mp (hsome 0 (Nat.succ_pos count))
    rw [add_zero] at hf
    obtain ⟨mem, hunmap, hnext⟩ := h.release hf
    have hsome' : ∀ j < count, (assign frame first none (first + 1 + j)).isSome := by
      intro j hj
      rw [assign_of_ne _ _ (by omega), add_assoc, add_comm 1]
      exact hsome (j + 1) (by omega)
    have hrest := ih hnext hsome'
    rw [X64.vmmFreeLoop]
    dsimp only
    rw [h.pagingGetPhys_eq hf, if_pos (mul_pageSize_ne_invalid f), hunmap s.pmm,
      regionPage_succ (h.inside first f hf), ← withoutRange_first]
    refine ⟨hrest.1, fun q => ?_⟩
    rw [hrest.2]
    dsimp only
    rw [pmmTestBit_giveBack (h.held first f hf).1, Bool.and_eq_true, decide_eq_true_iff]
    constructor
    · rintro ⟨⟨hq, hused⟩, hothers⟩
      refine ⟨hused, fun j hj => ?_⟩
      cases j with
      | zero =>
        rw [add_zero, hf]
        exact fun heq => hq (Option.some.inj heq).symm
      | succ j =>
        have hother := hothers j (by omega)
        rwa [assign_of_ne _ _ (by omega), add_assoc, add_comm 1] at hother
    · rintro ⟨hused, hnone⟩
      refine ⟨⟨?_, hused⟩, fun j hj => ?_⟩
      · rintro rfl
        exact hnone 0 (Nat.succ_pos count) hf
      · rw [assign_of_ne _ _ (by omega), add_assoc, add_comm 1]
        exact hnone (j + 1) (by omega)

end Taavi.X64
