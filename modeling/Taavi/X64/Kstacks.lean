import Mathlib.Data.Set.Lattice
import Mathlib.Order.CompletePartialOrder
import Taavi.X64.Boot
import Taavi.X64.Region

/-!
# Kernel stacks on the x86_64

`vmm_alloc_kstack` takes the first free slot and maps its stack behind a guard page, and
`vmm_free_kstack` finds the slot again. In between the rest of the kernel may use other pages and
frames.
-/

namespace Taavi.X64

open Lib X64.Pmm List Option
open Paging (Machine)

/-- The globals, and the stacks that were handed out and not yet freed. -/
structure StackSession where
  globals : Kstacks Pmm.State
  handed : List ℕ

/-- The rest of the kernel keeps the tables and the pages of the region, with their frames. -/
structure Others (s t : Kstacks Pmm.State) : Prop where
  kstackMap : t.kstackMap = s.kstackMap
  kernel : t.machine.kernelPageDir = s.machine.kernelPageDir
  leaves : ∀ n < regionPages, leafOf t.machine.mem t.machine.kernelPageDir (regionPage n) =
    leafOf s.machine.mem s.machine.kernelPageDir (regionPage n)
  tables : ∃ roots, Tables roots t.machine ∧ TablesUsed roots t.machine ∧
    ∀ n < regionPages, ∀ entry huge,
      leafOf s.machine.mem s.machine.kernelPageDir (regionPage n) = some (entry, huge) →
      ¬Reached tableOf 3 roots t.machine.mem (frameOf entry)
  used : ∀ n < regionPages, ∀ entry huge,
    leafOf s.machine.mem s.machine.kernelPageDir (regionPage n) = some (entry, huge) →
    pmmTestBit t.machine.pmm (frameOf entry) = true
  steady : Steady t.machine.pmm
  maxPages : t.machine.pmm.maxPages = s.machine.pmm.maxPages

/-- A call, with what it returns. -/
inductive StackEvent where
  | alloc (stack : Option ℕ)
  | free (stack : ℕ) (ok : Bool)
  | others

inductive StackStep : StackSession → StackEvent → StackSession → Prop
  | alloc {s : StackSession} {t : Kstacks Pmm.State} {stack : Option ℕ}
      (hcall : vmmAllocKstack pmmAlloc pmmFree s.globals = (t, stack)) :
      StackStep s (.alloc stack) ⟨t, stack.toList ++ s.handed⟩
  | free {s : StackSession} {t : Kstacks Pmm.State} {stack : ℕ} {ok : Bool}
      (hhanded : stack ∈ s.handed)
      (hcall : vmmFreeKstack pmmAlloc pmmFree s.globals stack = (t, ok)) :
      StackStep s (.free stack ok) ⟨t, if ok then s.handed.erase stack else s.handed⟩
  | others {s : StackSession} {t : Kstacks Pmm.State} (hothers : Others s.globals t) :
      StackStep s .others ⟨t, s.handed⟩

def kstackEnd (i : ℕ) : ℕ := kstackBase i + kstackSlotSize

def kstackPage (i k : ℕ) : ℕ := kstackBase i + (k + 1) * pageSize

def Kstacks.Mapped (s : Kstacks Pmm.State) (virt : ℕ) : Prop :=
  walkOf s.machine s.machine.kernelPageDir virt ≠ none

/-- The page of the region is one of a stack that is marked. -/
def InStack (kstackMap : ℕ → ℕ) (n : ℕ) : Prop :=
  n % (kernelStackPages + 1) ≠ 0 ∧ kstackMap (n / (kernelStackPages + 1)) = 1

/-- What holds of the kernel stacks after every call. -/
structure StacksSound (s : StackSession) : Prop where
  region : ∃ roots frame, Region roots s.globals.machine.kernelPageDir s.globals.machine frame ∧
    ∀ n < regionPages, (frame n).isSome ↔ InStack s.globals.kstackMap n
  marks : ∀ i < maxTasks, s.globals.kstackMap i = 0 ∨ s.globals.kstackMap i = 1
  handed : ∀ stack, stack ∈ s.handed ↔
    ∃ i < maxTasks, s.globals.kstackMap i = 1 ∧ stack = kstackEnd i
  nodup : s.handed.Nodup

variable {s t : StackSession} {g g' : Kstacks Pmm.State} {roots : ℕ → Prop} {dir i k n : ℕ}
  {frame : ℕ → Option ℕ}

theorem kstackPage_eq (i k : ℕ) :
    kstackPage i k = regionPage (i * (kernelStackPages + 1) + 1 + k) := by
  unfold kstackPage kstackBase regionPage kstackSlotSize kernelStackPages pageSize
  omega

theorem kstackBase_eq (i : ℕ) : kstackBase i = regionPage (i * (kernelStackPages + 1)) := by
  unfold kstackBase regionPage kstackSlotSize kernelStackPages pageSize
  omega

theorem pagesOf_kstack : pagesOf (kernelStackPages * pageSize) = kernelStackPages := by decide

theorem page_lt (hi : i < maxTasks) (hk : k < kernelStackPages) :
    i * (kernelStackPages + 1) + 1 + k < regionPages := by
  unfold maxTasks at hi
  unfold regionPages maxTasks
  unfold kernelStackPages at *
  omega

theorem inStack_page {kstackMap : ℕ → ℕ} (hk : k < kernelStackPages) :
    InStack kstackMap (i * (kernelStackPages + 1) + 1 + k) ↔ kstackMap i = 1 := by
  have hdiv : (i * (kernelStackPages + 1) + 1 + k) / (kernelStackPages + 1) = i := by
    unfold kernelStackPages at *
    omega
  have hmod : (i * (kernelStackPages + 1) + 1 + k) % (kernelStackPages + 1) ≠ 0 := by
    unfold kernelStackPages at *
    omega
  rw [InStack, hdiv]
  exact and_iff_right hmod

theorem inStack_assign {kstackMap : ℕ → ℕ} {m : ℕ} (hout : n < i * (kernelStackPages + 1) + 1 ∨
      i * (kernelStackPages + 1) + 1 + kernelStackPages ≤ n) :
    InStack (assign kstackMap i m) n ↔ InStack kstackMap n := by
  by_cases hslot : n / (kernelStackPages + 1) = i
  · have hguard : n % (kernelStackPages + 1) = 0 := by
      unfold kernelStackPages at *
      omega
    exact iff_of_false (fun h => h.1 hguard) fun h => h.1 hguard
  · rw [InStack, InStack, assign_of_ne _ _ hslot]

theorem kstackEnd_injective {j : ℕ} (h : kstackEnd i = kstackEnd j) : i = j := by
  unfold kstackEnd kstackBase kstackSlotSize kernelStackPages pageSize at h
  omega

theorem Region.atKernel {s : Machine Pmm.State} (h : Region roots dir s frame) :
    Region roots s.kernelPageDir s frame := by
  obtain rfl := h.kernel
  exact h

section

variable (h : Region roots g.machine.kernelPageDir g.machine frame)
  (hframe : ∀ n < regionPages, (frame n).isSome ↔ InStack g.kstackMap n)

include h hframe

theorem Region.vmmAllocKstack {stack : Option ℕ}
    (hcall : X64.vmmAllocKstack pmmAlloc pmmFree g = (g', stack)) :
    ∃ frame', Region roots g'.machine.kernelPageDir g'.machine frame' ∧
      (∀ n < regionPages, (frame' n).isSome ↔ InStack g'.kstackMap n) ∧
      ((stack = none ∧ g'.kstackMap = g.kstackMap) ∨
        ∃ i < maxTasks, g.kstackMap i = 0 ∧ stack = some (kstackEnd i) ∧
          g'.kstackMap = assign g.kstackMap i 1) := by
  rw [X64.vmmAllocKstack] at hcall
  cases hslot : firstSlot maxTasks fun i => g.kstackMap i == 0 with
  | none =>
    rw [hslot] at hcall
    cases hcall
    exact ⟨frame, h, hframe, .inl ⟨rfl, rfl⟩⟩
  | some i =>
    obtain ⟨hi, hfree, -⟩ := firstSlot_eq_some.mp hslot
    have hzero : g.kstackMap i = 0 := beq_iff_eq.mp hfree
    have hstart : kstackBase i + pageSize = regionPage (i * (kernelStackPages + 1) + 1) := by
      rw [kstackBase_eq, regionPage, regionPage, Nat.add_one_mul _ pageSize, add_assoc]
    have hempty : ∀ k < kernelStackPages, frame (i * (kernelStackPages + 1) + 1 + k) = none := by
      intro k hk
      rw [← not_isSome_iff_eq_none, hframe _ (page_lt hi hk), inStack_page hk, hzero]
      exact zero_ne_one
    have hend : i * (kernelStackPages + 1) + 1 + (0 + kernelStackPages) ≤ regionPages := by
      have hlast : i * (kernelStackPages + 1) + 1 + (kernelStackPages - 1) < regionPages :=
        page_lt hi (by decide)
      unfold kernelStackPages at *
      omega
    have hloop : X64.vmmAlloc pmmAlloc pmmFree g.machine g.machine.kernelPageDir
        (kstackBase i + pageSize) (kernelStackPages * pageSize) (Paging.pageRw ||| pageNx) =
        X64.vmmAllocLoop pmmAlloc pmmFree g.machine.kernelPageDir
          (regionPage (i * (kernelStackPages + 1) + 1)) kstackFlags kernelStackPages g.machine
          (regionPage (i * (kernelStackPages + 1) + 1 + 0)) := by
      rw [X64.vmmAlloc, hstart, if_neg, pagesOf_kstack, add_zero, kstackFlags]
      · rintro (hdir | hsize | hmod)
        · exact h.nonzero hdir
        · exact absurd hsize (by decide)
        · exact hmod (regionPage_mod _)
    rw [hslot] at hcall
    dsimp only at hcall
    rw [hloop] at hcall
    have hleft : ∀ k < kernelStackPages, frame (i * (kernelStackPages + 1) + 1 + (0 + k)) = none := by
      intro k hk
      rw [zero_add]
      exact hempty k hk
    rcases h.vmmAllocLoop (fun j hj => absurd hj j.not_lt_zero) hleft hend rfl with
      ⟨machine, frame', heq, hreg, hsome, hother⟩ | ⟨machine, heq, hreg⟩
    · rw [heq] at hcall
      cases hcall
      refine ⟨frame', hreg.atKernel, fun n hn => ?_, .inr ⟨i, hi, hzero, rfl, rfl⟩⟩
      dsimp only
      rw [zero_add] at hsome hother
      by_cases hin : i * (kernelStackPages + 1) + 1 ≤ n ∧
          n < i * (kernelStackPages + 1) + 1 + kernelStackPages
      · obtain ⟨k, rfl⟩ := Nat.exists_eq_add_of_le hin.1
        have hk : k < kernelStackPages := by omega
        rw [inStack_page hk, assign_same]
        exact iff_of_true (hsome k hk) rfl
      · rw [hother n (by omega), hframe n hn, inStack_assign (by omega)]
    · rw [heq] at hcall
      cases hcall
      refine ⟨_, hreg.atKernel, fun n hn => ?_, .inl ⟨rfl, rfl⟩⟩
      dsimp only
      rw [zero_add, ← hframe n hn, withoutRange]
      split_ifs with hin
      · obtain ⟨k, rfl⟩ := Nat.exists_eq_add_of_le hin.1
        rw [hempty k (by omega)]
      · rfl

theorem Region.vmmFreeKstack (hi : i < maxTasks)
    (hmark : g.kstackMap i = 1) :
    ∃ g' frame', X64.vmmFreeKstack pmmAlloc pmmFree g (kstackEnd i) = (g', true) ∧
      Region roots g'.machine.kernelPageDir g'.machine frame' ∧
      (∀ n < regionPages, (frame' n).isSome ↔ InStack g'.kstackMap n) ∧
      g'.kstackMap = assign g.kstackMap i 0 ∧
      ∀ k < kernelStackPages, ∀ f, frame (i * (kernelStackPages + 1) + 1 + k) = some f →
        pmmTestBit g'.machine.pmm f = false := by
  have hsome : ∀ k < kernelStackPages, (frame (i * (kernelStackPages + 1) + 1 + k)).isSome :=
    fun k hk => (hframe _ (page_lt hi hk)).mpr ((inStack_page hk).mpr hmark)
  have hbound := hi
  unfold maxTasks at hbound
  have hindex : ((kstackEnd i + 2 ^ 64 - kstackSlotSize) % 2 ^ 64 + 2 ^ 64 - kstackRegionBase) %
      2 ^ 64 / kstackSlotSize = i := by
    unfold kstackEnd kstackBase kstackSlotSize kstackRegionBase kernelStackPages pageSize
    omega
  have hstart : (kstackEnd i + 2 ^ 64 - kernelStackPages * pageSize) % 2 ^ 64 =
      regionPage (i * (kernelStackPages + 1) + 1) := by
    unfold kstackEnd kstackBase regionPage kstackSlotSize kstackRegionBase kernelStackPages pageSize
    omega
  obtain ⟨hreg, hbits⟩ := h.vmmFreeLoop hsome
  have hcall : X64.vmmFree pmmAlloc pmmFree g.machine g.machine.kernelPageDir
      (regionPage (i * (kernelStackPages + 1) + 1)) (kernelStackPages * pageSize) =
      (X64.vmmFreeLoop pmmAlloc pmmFree g.machine.kernelPageDir kernelStackPages g.machine
        (regionPage (i * (kernelStackPages + 1) + 1)), true) := by
    rw [X64.vmmFree, if_neg h.nonzero, pagesOf_kstack]
  generalize X64.vmmFreeLoop pmmAlloc pmmFree g.machine.kernelPageDir kernelStackPages g.machine
    (regionPage (i * (kernelStackPages + 1) + 1)) = machine at hreg hbits hcall
  refine ⟨⟨machine, assign g.kstackMap i 0⟩, _, ?_, hreg.atKernel, fun n hn => ?_, rfl,
    fun k hk f hf => ?_⟩
  · rw [X64.vmmFreeKstack, hindex, if_neg (by omega), if_neg (by omega), hstart, hcall]
  · dsimp only
    rw [withoutRange]
    split_ifs with hin
    · obtain ⟨k, rfl⟩ := Nat.exists_eq_add_of_le hin.1
      rw [inStack_page (by omega), assign_same]
      exact iff_of_false Bool.false_ne_true zero_ne_one
    · rw [hframe n hn, inStack_assign (by omega)]
  · rw [← Bool.not_eq_true, hbits f]
    exact fun hin => hin.2 k hk hf

end

theorem Others.region (hothers : Others g g')
    (h : Region roots g.machine.kernelPageDir g.machine frame) :
    ∃ roots', Region roots' g'.machine.kernelPageDir g'.machine frame := by
  obtain ⟨roots', htables, hused, hnot⟩ := hothers.tables
  refine ⟨roots', htables, hothers.steady, hused, rfl, hothers.kernel.symm ▸ h.nonzero,
    fun n hn => (hothers.leaves n hn).trans (h.leaves n hn), fun n f hf => ?_, h.unique, h.inside⟩
  have hn := h.inside n f hf
  have hlt := (h.held n f hf).1
  have hleaf : leafOf g.machine.mem g.machine.kernelPageDir (regionPage n) =
      some (stackEntry f, false) := by
    rw [h.leaves n hn, hf, map_some]
  have hentry : frameOf (stackEntry f) = f := by
    rw [frameOf, h.stackEntry_and hf, Nat.mul_div_cancel _ (by decide)]
  have hbit := hothers.used n hn _ _ hleaf
  have hreach := hnot n hn _ _ hleaf
  rw [hentry] at hbit hreach
  exact ⟨hothers.maxPages.symm ▸ hlt, hbit, hreach⟩

theorem StackStep.sound {e : StackEvent} (hstep : StackStep s e t) (h : StacksSound s) :
    StacksSound t := by
  obtain ⟨roots, frame, hreg, hframe⟩ := h.region
  cases hstep with
  | others hothers =>
    obtain ⟨roots', hreg'⟩ := hothers.region hreg
    have hmap := hothers.kstackMap
    refine ⟨⟨roots', frame, hreg', ?_⟩, ?_, ?_, h.nodup⟩
    all_goals rw [hmap]
    · exact hframe
    · exact h.marks
    · exact h.handed
  | @alloc g' stack hcall =>
    obtain ⟨frame', hreg', hframe', hcases⟩ := hreg.vmmAllocKstack hframe hcall
    rcases hcases with ⟨rfl, hmap⟩ | ⟨i, hi, hzero, rfl, hmap⟩
    · refine ⟨⟨roots, frame', hreg', hframe'⟩, ?_, ?_, h.nodup⟩
      all_goals rw [hmap]
      · exact h.marks
      · exact h.handed
    · have hnew : kstackEnd i ∉ s.handed := by
        intro hmem
        obtain ⟨j, -, hj, heq⟩ := (h.handed _).mp hmem
        obtain rfl := kstackEnd_injective heq
        rw [hzero] at hj
        cases hj
      refine ⟨⟨roots, frame', hreg', hframe'⟩, fun j hj => ?_, fun stack => ?_,
        nodup_cons.mpr ⟨hnew, h.nodup⟩⟩
      · rw [hmap, assign_apply]
        split_ifs
        · exact .inr rfl
        · exact h.marks j hj
      · rw [toList_some, singleton_append, mem_cons, h.handed, hmap]
        constructor
        · rintro (rfl | ⟨j, hj, hmark, rfl⟩)
          · exact ⟨i, hi, assign_same _ _ _, rfl⟩
          · refine ⟨j, hj, ?_, rfl⟩
            rw [assign_apply]
            split_ifs
            · rfl
            · exact hmark
        · rintro ⟨j, hj, hmark, rfl⟩
          by_cases hji : j = i
          · exact .inl (hji ▸ rfl)
          · rw [assign_of_ne _ _ hji] at hmark
            exact .inr ⟨j, hj, hmark, rfl⟩
  | @free g' stack ok hhanded hcall =>
    obtain ⟨i, hi, hmark, rfl⟩ := (h.handed _).mp hhanded
    obtain ⟨g'', frame', hcall', hreg', hframe', hmap, -⟩ :=
      hreg.vmmFreeKstack hframe hi hmark
    rw [hcall] at hcall'
    cases hcall'
    refine ⟨⟨roots, frame', hreg', hframe'⟩, fun j hj => ?_, fun stack => ?_, h.nodup.erase _⟩
    · rw [hmap, assign_apply]
      split_ifs
      · exact .inl rfl
      · exact h.marks j hj
    · rw [if_pos rfl, h.nodup.mem_erase_iff, h.handed, hmap]
      constructor
      · rintro ⟨hne, j, hj, hmark', rfl⟩
        refine ⟨j, hj, ?_, rfl⟩
        rw [assign_of_ne _ _ (by rintro rfl; exact hne rfl)]
        exact hmark'
      · rintro ⟨j, hj, hmark', rfl⟩
        have hji : j ≠ i := by
          rintro rfl
          rw [assign_same] at hmark'
          cases hmark'
        rw [assign_of_ne _ _ hji] at hmark'
        exact ⟨fun heq => hji (kstackEnd_injective heq), j, hj, hmark', rfl⟩

theorem Region.mapped_iff (h : Region roots g.machine.kernelPageDir g.machine frame)
    (hn : n < regionPages) : g.Mapped (regionPage n) ↔ (frame n).isSome := by
  have hends := h.tables.walkEnds h.isRoot (regionPage n)
  rw [h.leaves n hn] at hends
  unfold Kstacks.Mapped
  cases hf : frame n with
  | none =>
    rw [hf, map_none] at hends
    cases hends with
    | fault hphys hwalk => exact iff_of_false (fun hne => hne hwalk) Bool.false_ne_true
  | some f =>
    rw [hf, map_some] at hends
    cases hends with
    | leaf hphys hwalk hwritable huser =>
      rw [hwalk]
      exact iff_of_true (some_ne_none _) rfl

/-- No stack was handed out yet, and no page of the region is mapped. -/
structure NoStacks (s : StackSession) : Prop where
  kstackMap : s.globals.kstackMap = fun _ => 0
  handed : s.handed = []
  tables : ∃ roots, Tables roots s.globals.machine ∧ TablesUsed roots s.globals.machine
  steady : Steady s.globals.machine.pmm
  kernel : s.globals.machine.kernelPageDir ≠ 0
  unmapped : ∀ n < regionPages,
    leafOf s.globals.machine.mem s.globals.machine.kernelPageDir (regionPage n) = none

theorem NoStacks.sound (h : NoStacks s) : StacksSound s := by
  obtain ⟨roots, htables, hused⟩ := h.tables
  refine ⟨⟨roots, fun _ => none, ⟨htables, h.steady, hused, rfl, h.kernel, h.unmapped, nofun, nofun,
    nofun⟩, fun n hn => ?_⟩, fun i hi => .inl ?_, fun stack => ?_, ?_⟩
  · rw [h.kstackMap]
    exact iff_of_false Bool.false_ne_true fun hin => zero_ne_one hin.2
  · rw [h.kstackMap]
  · rw [h.handed, h.kstackMap]
    exact iff_of_false not_mem_nil fun ⟨_, _, hone, _⟩ => zero_ne_one hone
  · rw [h.handed]
    exact nodup_nil

def kstackRange (stack : ℕ) : Set ℕ := {a | stack - kernelStackPages * pageSize ≤ a ∧ a < stack}

/-- `vmm_free_kstack` finds the slot and gives its frames back, which are different and in use. -/
structure Freeable (g : Kstacks Pmm.State) (stack i : ℕ) : Prop where
  slot : i < maxTasks ∧ stack = kstackEnd i
  call : ∃ g', vmmFreeKstack pmmAlloc pmmFree g stack = (g', true) ∧
    g'.kstackMap = assign g.kstackMap i 0 ∧ ∀ k < kernelStackPages, ∃ f,
      pagingGetPhys g.machine g.machine.kernelPageDir (kstackPage i k) = f * pageSize ∧
      pmmTestBit g.machine.pmm f = true ∧ pmmTestBit g'.machine.pmm f = false
  distinct : ∀ k < kernelStackPages, ∀ k' < kernelStackPages,
    pagingGetPhys g.machine g.machine.kernelPageDir (kstackPage i k) =
      pagingGetPhys g.machine g.machine.kernelPageDir (kstackPage i k') → k = k'

theorem StacksSound.freeable (h : StacksSound s) {stack : ℕ} (hstack : stack ∈ s.handed) :
    ∃ i, Freeable s.globals stack i := by
  obtain ⟨roots, frame, hreg, hframe⟩ := h.region
  obtain ⟨i, hi, hmark, rfl⟩ := (h.handed stack).mp hstack
  have hsome : ∀ k < kernelStackPages, ∃ f, frame (i * (kernelStackPages + 1) + 1 + k) = some f :=
    fun k hk => isSome_iff_exists.mp
      ((hframe _ (page_lt hi hk)).mpr ((inStack_page hk).mpr hmark))
  obtain ⟨g', -, hcall, -, -, hmap, hfreed⟩ := hreg.vmmFreeKstack hframe hi hmark
  refine ⟨i, ⟨hi, rfl⟩, ⟨g', hcall, hmap, fun k hk => ?_⟩, fun k hk k' hk' heq => ?_⟩
  · obtain ⟨f, hf⟩ := hsome k hk
    refine ⟨f, ?_, (hreg.held _ f hf).2.1, hfreed k hk f hf⟩
    rw [kstackPage_eq, hreg.pagingGetPhys_eq hf]
  · obtain ⟨f, hf⟩ := hsome k hk
    obtain ⟨f', hf'⟩ := hsome k' hk'
    rw [kstackPage_eq, kstackPage_eq, hreg.pagingGetPhys_eq hf,
      hreg.pagingGetPhys_eq hf'] at heq
    obtain rfl := Nat.eq_of_mul_eq_mul_right (by decide) heq
    have hsame := hreg.unique _ _ f hf hf'
    omega

theorem disjoint_kstackRange {j : ℕ} (hne : i ≠ j) :
    Disjoint (kstackRange (kstackEnd i)) (kstackRange (kstackEnd j)) := by
  refine Set.disjoint_left.mpr fun a hi hj => hne ?_
  obtain ⟨hlow, hhigh⟩ := hi
  obtain ⟨hlow', hhigh'⟩ := hj
  unfold kstackEnd kstackBase kstackSlotSize kernelStackPages pageSize at *
  omega

/-- After any calls the stacks in use are disjoint; a slot is marked just when all its pages are
mapped, and otherwise none is; guard pages are never mapped; and every stack can be freed. -/
theorem kernel_stacks_are_sound {es : List StackEvent} (hstart : NoStacks s)
    (hrun : Run StackStep s es t) :
    t.handed.Pairwise (fun a b => Disjoint (kstackRange a) (kstackRange b)) ∧
      (∀ i < maxTasks,
        (t.globals.kstackMap i = 1 ↔ ∀ k < kernelStackPages, t.globals.Mapped (kstackPage i k)) ∧
        (t.globals.kstackMap i = 0 → ∀ k < kernelStackPages, ¬t.globals.Mapped (kstackPage i k)) ∧
        (t.globals.kstackMap i = 0 ∨ t.globals.kstackMap i = 1) ∧
        ¬t.globals.Mapped (kstackBase i)) ∧
      ∀ stack ∈ t.handed, ∃ i, Freeable t.globals stack i := by
  have h : StacksSound t := hrun.invariant (fun _ _ _ hs hstep => hstep.sound hs) hstart.sound
  obtain ⟨roots, frame, hregion, hframe⟩ := h.region
  refine ⟨?_, fun i hi => ?_, fun stack => h.freeable⟩
  · refine h.nodup.imp_of_mem fun {a b} ha hb hne => ?_
    obtain ⟨i, -, -, rfl⟩ := (h.handed a).mp ha
    obtain ⟨j, -, -, rfl⟩ := (h.handed b).mp hb
    exact disjoint_kstackRange fun hij => hne (congrArg kstackEnd hij)
  · have hmapped : ∀ k < kernelStackPages,
        (t.globals.Mapped (kstackPage i k) ↔ t.globals.kstackMap i = 1) := by
      intro k hk
      have hn := page_lt hi hk
      rw [kstackPage_eq, hregion.mapped_iff hn, hframe _ hn, inStack_page hk]
    have hguard : ¬t.globals.Mapped (kstackBase i) := by
      have hn : i * (kernelStackPages + 1) < regionPages := by
        have hlt : i * (kernelStackPages + 1) + 1 + 0 < regionPages := page_lt hi (by decide)
        omega
      rw [kstackBase_eq, hregion.mapped_iff hn, hframe _ hn]
      exact fun hin => hin.1 (Nat.mul_mod_left _ _)
    refine ⟨⟨fun hone k hk => (hmapped k hk).mpr hone, fun hall => ?_⟩, fun hzero k hk hin => ?_,
      h.marks i hi, hguard⟩
    · have hfirst : 0 < kernelStackPages := by decide
      exact (hmapped 0 hfirst).mp (hall 0 hfirst)
    · rw [(hmapped k hk).mp hin] at hzero
      cases hzero

/-- A directory whose kernel half has empty tables in the frames 256 to 511. -/
def stackMemory (f i : ℕ) : ℕ := if f = 2000 ∧ 256 ≤ i ∧ i < 512 then i * pageSize + 3 else 0

def stackMachine : StackSession where
  globals :=
    { machine :=
        { mem := stackMemory
          kernelPageDir := 2000
          pmm :=
            { bitmap := fun w => if 4 ≤ w ∧ w < 8 ∨ 16 ≤ w then BitVec.allOnes 64 else 0
              maxPages := 1024
              usedPages := 256
              freePages := 768
              lastFound := 1 } }
      kstackMap := fun _ => 0 }
  handed := []

theorem tableOf_stackMemory {f j next : ℕ} (h : tableOf (stackMemory f j) = some next) :
    f = 2000 ∧ 256 ≤ j ∧ j < 512 ∧ next = j := by
  have hentry : ∀ j < 512, tableOf (j * pageSize + 3) = some j := by decide +kernel
  unfold stackMemory at h
  split_ifs at h with hin
  · rw [hentry j hin.2.2] at h
    exact ⟨hin.1, hin.2.1, hin.2.2, (Option.some.inj h).symm⟩
  · rw [tableOf_zero] at h
    cases h

theorem filling_stackMachine : Filling stackMachine.globals.machine entriesPerTable := by
  have hblank : ∀ f i, f ≠ 2000 → stackMemory f i = 0 := fun f i hf => if_neg fun h => hf h.1
  have hwalk : ∀ path table, walk tableOf stackMemory 2000 path = some table →
      path = [] ∧ table = 2000 ∨ path = [table] ∧ table < 512 := by
    intro path table hpath
    match path with
    | [] => exact .inl ⟨rfl, (Option.some.inj hpath).symm⟩
    | [j] =>
      rw [walk_cons] at hpath
      obtain ⟨next, hnext, hlast⟩ := bind_eq_some_iff.mp hpath
      cases hlast
      obtain ⟨-, -, hj, rfl⟩ := tableOf_stackMemory hnext
      exact .inr ⟨rfl, hj⟩
    | j :: k :: rest =>
      rw [walk_cons] at hpath
      obtain ⟨next, hnext, hlast⟩ := bind_eq_some_iff.mp hpath
      obtain ⟨-, -, hj, rfl⟩ := tableOf_stackMemory hnext
      rw [walk_cons, hblank next k (by omega), tableOf_zero] at hlast
      cases hlast
  have hfill : ∀ j < 512, 256 ≤ j → tableOf (stackMemory 2000 j) ≠ none ∧
      (stackMemory 2000 j).testBit 1 = true := by
    decide +kernel
  constructor
  case tree =>
    rintro _ _ path path' table rfl rfl - - hpath hpath'
    refine ⟨?_, .inl rfl⟩
    rcases hwalk path table hpath with ⟨rfl, htable⟩ | ⟨rfl, htable⟩ <;>
      rcases hwalk path' table hpath' with ⟨rfl, htable'⟩ | ⟨rfl, htable'⟩ <;> first | rfl | omega
  case blank =>
    intro j next hnext k
    obtain ⟨-, -, hj, rfl⟩ := tableOf_stackMemory hnext
    exact hblank next k (by omega)
  case entry =>
    intro j
    by_cases hj : 256 ≤ j ∧ j < 512
    · exact .inr (hfill j hj.2 hj.1)
    · exact .inl (if_neg fun h => hj h.2)
  case filled => exact fun j hlow hhigh => (hfill j hhigh hlow).1
  case rest =>
    intro j hj
    refine if_neg fun h => ?_
    have hlast : (512 : ℕ) ≤ j := hj
    omega

theorem noStacks_stackMachine : NoStacks stackMachine where
  kstackMap := rfl
  handed := rfl
  tables := by
    refine ⟨_, filling_stackMachine.tables, ?_⟩
    rintro f ⟨root, path, rfl, -, hwalk⟩
    have hbits : ∀ f < 512, 256 ≤ f → pmmTestBit stackMachine.globals.machine.pmm f = true := by
      decide +kernel
    rcases filling_stackMachine.walk_cases hwalk with ⟨-, rfl⟩ | ⟨j, -, hnext⟩
    · decide +kernel
    · obtain ⟨-, hlow, hhigh, rfl⟩ := tableOf_stackMemory hnext
      exact hbits f hhigh hlow
  steady := ⟨⟨by decide, by decide +kernel⟩, by decide⟩
  kernel := by decide
  unmapped n _ := filling_stackMachine.leafOf_eq _

/-- A stack is handed out, and it can be freed. -/
theorem first_stack_is_sound : ∃ t stack,
    Run StackStep stackMachine [.alloc (some stack)] t ∧ t.handed = [stack] ∧
      ∃ i, Freeable t.globals stack i := by
  have halloc : (vmmAllocKstack pmmAlloc pmmFree stackMachine.globals).2.isSome = true := by
    decide +kernel
  obtain ⟨stack, hstack⟩ := isSome_iff_exists.mp halloc
  generalize hcall : vmmAllocKstack pmmAlloc pmmFree stackMachine.globals = result at hstack
  obtain ⟨g, answer⟩ := result
  obtain rfl : answer = some stack := hstack
  have hrun : Run StackStep stackMachine [.alloc (some stack)] ⟨g, [stack]⟩ :=
    .cons (.alloc hcall) (.nil _)
  obtain ⟨-, -, hfree⟩ := kernel_stacks_are_sound noStacks_stackMachine hrun
  exact ⟨_, stack, hrun, rfl, hfree stack (mem_singleton_self stack)⟩

end Taavi.X64
