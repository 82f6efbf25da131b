import Taavi.X64.UserSpace

/-!
# The release of a user address space on the x86_64

`vmm_free_user_space` gives back each page and table of the user half once, but never the directory:
every address space that was released leaves one frame in use.
-/

namespace Taavi.X64

open Lib X64.Pmm List Option
open Paging (Machine)

/-- The paths below a path, in the order of the loops: what is below an entry comes before it. -/
def slotsBelow : ℕ → List ℕ → List (List ℕ)
  | 0, _ => []
  | level + 1, path =>
    (List.range entriesPerTable).flatMap fun i => slotsBelow level (path ++ [i]) ++ [path ++ [i]]

def entrySlots (level : ℕ) (path : List ℕ) (i : ℕ) : List (List ℕ) :=
  slotsBelow level (path ++ [i]) ++ [path ++ [i]]

/-- The paths of the user half but for that of the directory, in the order of the loops. -/
def userSlots : List (List ℕ) := (List.range kernelPdIndexStart).flatMap (entrySlots 3 [])

/-- The frames of an address space, in the order in which they are given back. -/
def userFrames (mem : ℕ → ℕ → ℕ) (dir : ℕ) : List ℕ := userSlots.filterMap (heldFrame mem dir)

variable {s t u : Machine Pmm.State} {mem : ℕ → ℕ → ℕ} {dir frame table i level : ℕ}
  {path is : List ℕ}

theorem userSpace_create (hstead : Steady s.pmm) (hcreate : vmmCreateDir pmmAlloc s = (t, dir))
    (hdir : dir ≠ 0) : Given s.pmm dir ∧ t.pmm = (pmmAlloc s.pmm).2 ∧ UserSpace s dir none t := by
  unfold vmmCreateDir pagingCreateDirectory at hcreate
  dsimp only at hcreate
  split_ifs at hcreate with hzero
  · exact absurd (Prod.mk.inj hcreate).2.symm hdir
  obtain ⟨frame, hgiven⟩ := hstead.exists_given hzero
  rw [hgiven.div] at hcreate
  obtain ⟨rfl, rfl⟩ := Prod.mk.inj hcreate
  have hheld : ∀ path, path ≠ [] →
      heldFrame (assign s.mem frame (directoryContent s)) frame path = none := by
    intro path hne
    obtain ⟨i, rest, rfl⟩ := exists_cons_of_ne_nil hne
    have hempty : userMem frame (assign s.mem frame (directoryContent s)) frame i = 0 := by
      unfold userMem
      split_ifs with hi
      · rw [assign_same, directoryContent, if_neg (by have := hi.2 rfl; omega)]
      · rfl
    unfold heldFrame
    split_ifs
    · rw [walk_cons, hempty, frameIn_zero, bind_none]
    · rfl
  refine ⟨hgiven, rfl, ?_, ?_, ?_, hstead.alloc, hstead.maxPages_alloc, nofun⟩
  · have hnone : Holdings (fun _ : List ℕ => none) (pmmTestBit s.pmm) (pmmTestBit s.pmm) :=
      .empty fun _ => rfl
    refine hnone.add hgiven.free rfl (show heldFrame _ frame [] = some frame from rfl) hheld ?_ ?_
    · rw [inUseBut, hgiven.used]
      rfl
    · intro g hg
      rw [inUseBut, hgiven.other hg]
      rfl
  · intro f hf
    have hne : f ≠ frame := by
      rintro rfl
      rw [hgiven.free] at hf
      cases hf
    exact assign_of_ne s.mem _ hne
  · intro path f hpath
    by_cases hnil : path = []
    · subst hnil
      cases hpath
      exact ⟨hgiven.nonzero, hstead.maxPages_alloc.symm ▸ hgiven.lt⟩
    · rw [hheld path hnil] at hpath
      cases hpath

theorem mem_entrySlots {q : List ℕ} : q ∈ entrySlots level path i ↔
    ∃ rest : List ℕ, q = path ++ i :: rest ∧ rest.length ≤ level ∧
      ∀ j ∈ rest, j < entriesPerTable := by
  induction level generalizing path i with
  | zero =>
    constructor
    · intro hq
      exact ⟨[], by simpa [entrySlots, slotsBelow] using hq, le_rfl, by simp⟩
    · rintro ⟨rest, rfl, hlen, -⟩
      rw [eq_nil_of_length_eq_zero (Nat.le_zero.mp hlen)]
      simp [entrySlots]
  | succ level ih =>
    have hbelow : slotsBelow (level + 1) (path ++ [i]) =
        (List.range entriesPerTable).flatMap (entrySlots level (path ++ [i])) := rfl
    rw [entrySlots, hbelow, mem_append, mem_flatMap, mem_singleton]
    constructor
    · rintro (⟨j, hj, hq⟩ | rfl)
      · obtain ⟨rest, rfl, hlen, hrest⟩ := ih.mp hq
        refine ⟨j :: rest, by simp, by simpa using hlen, ?_⟩
        simpa using ⟨mem_range.mp hj, hrest⟩
      · exact ⟨[], rfl, Nat.zero_le _, by simp⟩
    · rintro ⟨rest, rfl, hlen, hrest⟩
      cases rest with
      | nil => exact .inr rfl
      | cons j rest =>
        refine .inl ⟨j, mem_range.mpr (hrest j mem_cons_self), ih.mpr ?_⟩
        exact ⟨rest, by simp, by simpa using hlen, fun k hk => hrest k (mem_cons_of_mem j hk)⟩

theorem nodup_flatMap_entrySlots (hentry : ∀ i ∈ is, (entrySlots level path i).Nodup)
    (his : is.Nodup) : (is.flatMap (entrySlots level path)).Nodup := by
  refine nodup_flatMap.mpr ⟨hentry, his.imp fun {i j} hne q hq hq' => hne ?_⟩
  obtain ⟨rest, rfl, -⟩ := mem_entrySlots.mp hq
  obtain ⟨rest', heq, -⟩ := mem_entrySlots.mp hq'
  exact (List.cons.inj (append_cancel_left heq)).1

theorem nodup_entrySlots (level : ℕ) (path : List ℕ) (i : ℕ) : (entrySlots level path i).Nodup := by
  induction level generalizing path i with
  | zero => simp [entrySlots, slotsBelow]
  | succ level ih =>
    refine nodup_append.mpr ⟨?_, nodup_singleton _, ?_⟩
    · exact nodup_flatMap_entrySlots (fun j _ => ih _ j) nodup_range
    · rintro q hq q' hq' rfl
      obtain ⟨j, -, hq⟩ := mem_flatMap.mp hq
      obtain ⟨rest, hlong, -⟩ := mem_entrySlots.mp hq
      rw [mem_singleton.mp hq'] at hlong
      simp at hlong

theorem nodup_userSlots : userSlots.Nodup :=
  nodup_flatMap_entrySlots (fun i _ => nodup_entrySlots 3 [] i) nodup_range

theorem lt_of_walk {root : ℕ} (h : walk frameIn (userMem dir mem) root path = some frame) :
    ∀ i ∈ path, i < entriesPerTable := by
  induction path generalizing root with
  | nil => simp
  | cons i path ih =>
    rw [walk_cons] at h
    obtain ⟨next, hnext, hrest⟩ := bind_eq_some_iff.mp h
    have hi : UserEntry dir root i := by
      by_contra hno
      rw [userMem, if_neg hno, frameIn_zero] at hnext
      cases hnext
    exact forall_mem_cons.mpr ⟨hi.1, ih hrest⟩

theorem mem_userSlots (h : heldFrame mem dir path = some frame) (hne : path ≠ []) :
    path ∈ userSlots := by
  obtain ⟨i, rest, rfl⟩ := exists_cons_of_ne_nil hne
  have hlen := length_le_of_heldFrame h
  rw [heldFrame_of_le hlen] at h
  have hi : UserEntry dir dir i := by
    by_contra hno
    rw [walk_cons, userMem, if_neg hno, frameIn_zero, bind_none] at h
    cases h
  refine mem_flatMap.mpr ⟨i, mem_range.mpr (hi.2 rfl), mem_entrySlots.mpr ?_⟩
  exact ⟨rest, rfl, Nat.le_of_succ_le_succ hlen, fun j hj => lt_of_walk h j (mem_cons_of_mem i hj)⟩

theorem ne_nil_of_mem_userSlots (h : path ∈ userSlots) : path ≠ [] := by
  obtain ⟨i, -, hi⟩ := mem_flatMap.mp h
  obtain ⟨rest, rfl, -⟩ := mem_entrySlots.mp hi
  simp

theorem heldFrame_append_none (h : heldFrame mem dir path = none) (rest : List ℕ) :
    heldFrame mem dir (path ++ rest) = none := by
  unfold heldFrame at h ⊢
  split_ifs with hlen
  · rw [length_append] at hlen
    rw [if_pos (by omega)] at h
    rw [walk_append, h, bind_none]
  · rfl

def Touched (mem : ℕ → ℕ → ℕ) (dir : ℕ) (path : List ℕ) (frame : ℕ) : Prop :=
  ∃ rest, (path ++ rest).length ≤ 3 ∧ heldFrame mem dir (path ++ rest) = some frame

/-- The frames below a path are given back, where `mem` is the memory before the release. -/
structure ReleasedBelow (mem : ℕ → ℕ → ℕ) (dir level : ℕ) (path : List ℕ)
    (u v : Machine Pmm.State) : Prop where
  pmm : v.pmm = freeFrames u.pmm ((slotsBelow level path).filterMap (heldFrame mem dir))
  memory : ∀ f, ¬Touched mem dir path f → v.mem f = u.mem f

/-- The frames on the paths through some entries of a table are given back. -/
structure ReleasedEntries (mem : ℕ → ℕ → ℕ) (dir level : ℕ) (path : List ℕ) (table : ℕ)
    (is : List ℕ) (u v : Machine Pmm.State) : Prop where
  pmm : v.pmm = freeFrames u.pmm ((is.flatMap (entrySlots level path)).filterMap (heldFrame mem dir))
  entries : ∀ j, j ∉ is → v.mem table j = u.mem table j
  memory : ∀ f, f ≠ table → (∀ i ∈ is, ¬Touched mem dir (path ++ [i]) f) → v.mem f = u.mem f

theorem Apart.not_touched (h : Apart mem dir) (hpath : heldFrame mem dir path = some table) (i : ℕ) :
    ¬Touched mem dir (path ++ [i]) table := by
  rintro ⟨rest, -, hpath'⟩
  simpa using h hpath hpath'

theorem Apart.touched_once (h : Apart mem dir) {j : ℕ} (hi : Touched mem dir (path ++ [i]) frame)
    (hj : Touched mem dir (path ++ [j]) frame) : i = j := by
  obtain ⟨rest, -, hpath⟩ := hi
  obtain ⟨rest', -, hpath'⟩ := hj
  simpa using congrArg List.head? (append_cancel_left
    (by simpa using h hpath hpath' : path ++ i :: rest = path ++ j :: rest'))

def ReleasesBelow (mem : ℕ → ℕ → ℕ) (dir level : ℕ) : Prop :=
  ∀ path frame u, path.length + level = 4 → heldFrame mem dir path = some frame →
    (∀ f, Touched mem dir path f → u.mem f = mem f) →
    ReleasedBelow mem dir level path u (releaseBelow pmmFree level u frame)

theorem frameOf_mul_pageSize (entry : ℕ) : frameOf entry * pageSize = entry &&& pageFrameMask := by
  have hdvd : pageSize ∣ entry &&& pageFrameMask := by
    refine Nat.dvd_of_mod_eq_zero ?_
    rw [show pageSize = 2 ^ 12 from rfl, ← Nat.and_two_pow_sub_one_eq_mod, Nat.and_assoc,
      show pageFrameMask &&& (2 ^ 12 - 1) = 0 by decide, Nat.and_zero]
  exact Nat.div_mul_cancel hdvd

theorem releaseEntry_spec (hbelow : ReleasesBelow mem dir level) (hapart : Apart mem dir)
    (hlen : path.length + level = 3) (hpath : heldFrame mem dir path = some table)
    (hi : UserEntry dir table i) (hentry : u.mem table i = mem table i)
    (hmem : ∀ f, Touched mem dir (path ++ [i]) f → u.mem f = mem f) :
    ReleasedEntries mem dir level path table [i] u
      (releaseEntry pmmFree (releaseBelow pmmFree level) table u i) := by
  have hnext := heldFrame_concat (by omega) hpath hi
  unfold releaseEntry
  rw [hentry]
  cases hpres : (mem table i).testBit 0 with
  | false =>
    rw [frameIn_eq_none.mpr hpres] at hnext
    have hnone : (entrySlots level path i).filterMap (heldFrame mem dir) = [] := by
      refine filterMap_eq_nil_iff.mpr fun q hq => ?_
      obtain ⟨rest, rfl, -⟩ := mem_entrySlots.mp hq
      rw [← singleton_append, ← append_assoc]
      exact heldFrame_append_none hnext rest
    refine ⟨?_, fun _ _ => rfl, fun _ _ _ => rfl⟩
    rw [flatMap_singleton, hnone]
    rfl
  | true =>
    have hframe : heldFrame mem dir (path ++ [i]) = some (frameOf (mem table i)) :=
      hnext.trans (frameIn_eq_some.mpr ⟨hpres, rfl⟩)
    have hreleased := hbelow (path ++ [i]) _ u (by simp; omega) hframe hmem
    have htable := hreleased.memory table (hapart.not_touched hpath i)
    dsimp only [Bool.not_true, Bool.false_eq_true, if_false]
    rw [if_neg (by decide)]
    refine ⟨?_, ?_, ?_⟩
    · dsimp only
      rw [htable, hentry, flatMap_singleton, entrySlots, filterMap_append,
        filterMap_cons_some hframe, filterMap_nil, freeFrames_append, ← hreleased.pmm,
        ← frameOf_mul_pageSize]
      rfl
    · intro j hj
      dsimp only
      rw [storeWord_apply, if_neg (fun hhere => hj (mem_singleton.mpr hhere.2)), htable]
    · intro f hf hnot
      rw [← hreleased.memory f (hnot i mem_cons_self)]
      funext j
      exact storeWord_of_ne _ _ _ _ hf

theorem releaseEntries_spec (hbelow : ReleasesBelow mem dir level) (hapart : Apart mem dir)
    (hlen : path.length + level = 3) (hpath : heldFrame mem dir path = some table)
    (his : is.Nodup) (hi : ∀ i ∈ is, UserEntry dir table i)
    (hentry : ∀ i ∈ is, u.mem table i = mem table i)
    (hmem : ∀ i ∈ is, ∀ f, Touched mem dir (path ++ [i]) f → u.mem f = mem f) :
    ReleasedEntries mem dir level path table is u
      (is.foldl (releaseEntry pmmFree (releaseBelow pmmFree level) table) u) := by
  induction is generalizing u with
  | nil => exact ⟨rfl, fun _ _ => rfl, fun _ _ _ => rfl⟩
  | cons i is ih =>
    obtain ⟨hnot, his⟩ := nodup_cons.mp his
    rw [forall_mem_cons] at hi hentry hmem
    have hfst := releaseEntry_spec hbelow hapart hlen hpath hi.1 hentry.1 hmem.1
    rw [foldl_cons]
    generalize releaseEntry pmmFree (releaseBelow pmmFree level) table u i = v at hfst ⊢
    have hrest := ih (u := v) his hi.2 ?_ ?_
    · refine ⟨?_, ?_, ?_⟩
      · rw [hrest.pmm, hfst.pmm, ← freeFrames_append, ← filterMap_append,
          flatMap_singleton, flatMap_cons]
      · intro j hj
        rw [mem_cons, not_or] at hj
        rw [hrest.entries j hj.2, hfst.entries j (by simpa using hj.1)]
      · intro f hf hnone
        rw [hrest.memory f hf fun k hk => hnone k (mem_cons_of_mem i hk),
          hfst.memory f hf fun k hk => hnone k (mem_singleton.mp hk ▸ mem_cons_self)]
    · -- the entries that are left have not been written
      intro k hk
      have hne : k ∉ [i] := fun heq => hnot (mem_singleton.mp heq ▸ hk)
      rw [hfst.entries k hne, hentry.2 k hk]
    · intro k hk f hf
      have htable : f ≠ table := by
        rintro rfl
        exact hapart.not_touched hpath k hf
      rw [hfst.memory f htable, hmem.2 k hk f hf]
      intro j hj hf'
      rw [mem_singleton.mp hj] at hf'
      exact hnot (hapart.touched_once hf' hf ▸ hk)

theorem releasesBelow (hapart : Apart mem dir) (hlevel : level ≤ 3) :
    ReleasesBelow mem dir level := by
  induction level with
  | zero =>
    intro path frame u _ _ _
    exact ⟨rfl, fun _ _ => rfl⟩
  | succ level ih =>
    intro path frame u hlen hpath hmem
    have hne : frame ≠ dir := by
      rintro rfl
      have hnil := hapart hpath (show heldFrame mem frame [] = some frame from rfl)
      subst hnil
      simp at hlen
      omega
    have hself : Touched mem dir path frame := ⟨[], by simp; omega, by simpa using hpath⟩
    have hentries := releaseEntries_spec (ih (by omega)) hapart (by omega) hpath nodup_range
      (fun i hi => ⟨mem_range.mp hi, fun heq => absurd heq hne⟩)
      (fun i _ => congrFun (hmem frame hself) i) ?_
    · rw [releaseBelow]
      generalize List.foldl _ u (List.range entriesPerTable) = v at hentries ⊢
      refine ⟨?_, fun f hf => ?_⟩
      · rw [hentries.pmm, slotsBelow]
        rfl
      refine hentries.memory f ?_ ?_
      · rintro rfl
        exact hf hself
      · rintro i - ⟨rest, hrest, hpath'⟩
        exact hf ⟨i :: rest, by simpa using hrest, by simpa using hpath'⟩
    · rintro i - f ⟨rest, hrest, hpath'⟩
      exact hmem f ⟨i :: rest, by simpa using hrest, by simpa using hpath'⟩

theorem UserSpace.vmmFreeUserSpace (h : UserSpace s dir none t) :
    ∃ v, X64.vmmFreeUserSpace pmmFree t dir = (v, true) ∧
      v.pmm = freeFrames t.pmm (userFrames t.mem dir) ∧
      ∀ f, pmmTestBit s.pmm f = true → v.mem f = s.mem f := by
  have hroot : heldFrame t.mem dir [] = some dir := rfl
  have hlower : ∀ i ∈ List.range kernelPdIndexStart, UserEntry dir dir i := by
    intro i hi
    have hlt : i < kernelPdIndexStart := mem_range.mp hi
    exact ⟨hlt.trans (by decide), fun _ => hlt⟩
  have hbelow : ReleasesBelow t.mem dir 3 := releasesBelow h.apart le_rfl
  have hentries := releaseEntries_spec hbelow h.apart rfl hroot nodup_range hlower
    (fun _ _ => rfl) (fun _ _ _ _ => rfl)
  refine ⟨_, ?_, hentries.pmm, ?_⟩
  · unfold X64.vmmFreeUserSpace
    rw [if_neg (h.bound [] dir hroot).1]
  · intro f hf
    rw [← h.memory f hf]
    refine hentries.memory f (h.ne_of_held hroot hf) ?_
    rintro i - ⟨rest, -, hpath⟩
    exact h.ne_of_held hpath hf rfl

variable {start v : Machine Pmm.State} {rs : List VmmRequest}

theorem UserSpace.mem_userFrames (h : UserSpace s dir none t) (f : ℕ) :
    f ∈ userFrames t.mem dir ↔
      pmmTestBit s.pmm f = false ∧ pmmTestBit t.pmm f = true ∧ f ≠ dir := by
  have hheld : (∃ path, heldFrame t.mem dir path = some f) ↔
      pmmTestBit s.pmm f = false ∧ pmmTestBit t.pmm f = true := h.holdings.mem_iff f
  have hroot : heldFrame t.mem dir [] = some dir := rfl
  rw [← and_assoc, ← hheld, userFrames, mem_filterMap]
  constructor
  · rintro ⟨path, hslot, hpath⟩
    refine ⟨⟨path, hpath⟩, ?_⟩
    rintro rfl
    exact ne_nil_of_mem_userSlots hslot (h.apart hpath hroot)
  · rintro ⟨⟨path, hpath⟩, hne⟩
    refine ⟨path, mem_userSlots hpath ?_, hpath⟩
    rintro rfl
    exact hne (Option.some.inj hpath).symm

theorem UserSpace.pmmTestBit_released (h : UserSpace s dir none t) (f : ℕ) :
    pmmTestBit (freeFrames t.pmm (userFrames t.mem dir)) f =
      (decide (f = dir) || pmmTestBit s.pmm f) := by
  have hlt : ∀ g ∈ userFrames t.mem dir, g < t.pmm.maxPages := by
    intro g hg
    obtain ⟨path, -, hpath⟩ := mem_filterMap.mp hg
    exact (h.bound path g hpath).2
  have hroot : heldFrame t.mem dir [] = some dir := rfl
  have hdir : pmmTestBit t.pmm dir = true := ((h.holdings.mem_iff dir).mp ⟨[], hroot⟩).2
  rw [pmmTestBit_freeFrames hlt, Bool.eq_iff_iff]
  simp only [Bool.and_eq_true, Bool.or_eq_true, decide_eq_true_eq, h.mem_userFrames f]
  constructor
  · rintro ⟨hnot, hused⟩
    by_contra hneither
    rw [not_or] at hneither
    exact hnot ⟨by simpa using hneither.2, hused, hneither.1⟩
  · rintro (rfl | hused)
    · exact ⟨fun hmem => hmem.2.2 rfl, hdir⟩
    · have hkept : pmmTestBit t.pmm f = true := h.holdings.kept f hused
      exact ⟨fun hmem => by simp [hused] at hmem, hkept⟩

/-- After successful calls of `vmm_alloc` on a new directory, `vmm_free_user_space` gives back its
tables and pages, each once, and nothing else: the frame of the directory itself stays in use. -/
theorem directory_frame_is_lost (hsteady : Steady s.pmm)
    (hcreate : vmmCreateDir pmmAlloc s = (start, dir)) (hdir : dir ≠ 0)
    (hrun : Run (AllocStep dir) start rs t) (hproper : ∀ r ∈ rs, r.Proper) :
    ∃ v, vmmFreeUserSpace pmmFree t dir = (v, true) ∧
      v.pmm = freeFrames t.pmm (userFrames t.mem dir) ∧ (userFrames t.mem dir).Nodup ∧
      (∀ f, f ∈ userFrames t.mem dir ↔
        pmmTestBit s.pmm f = false ∧ pmmTestBit t.pmm f = true ∧ f ≠ dir) ∧
      (pmmTestBit s.pmm dir = false ∧ pmmTestBit v.pmm dir = true) ∧
      (∀ f, f ≠ dir → pmmTestBit v.pmm f = pmmTestBit s.pmm f) ∧
      (∀ f, pmmTestBit s.pmm f = true → v.mem f = s.mem f) ∧
      v.pmm.freePages + 1 = s.pmm.freePages := by
  obtain ⟨hgiven, hpmm, hspace⟩ := userSpace_create hsteady hcreate hdir
  have h := hspace.vmmAllocs hrun hproper
  obtain ⟨v, hok, hv, hmem⟩ := h.vmmFreeUserSpace
  have hbits := h.pmmTestBit_released
  rw [← hv] at hbits
  refine ⟨v, hok, hv, h.holdings.nodup_filterMap nodup_userSlots, h.mem_userFrames,
    ⟨hgiven.free, ?_⟩, ?_, hmem, ?_⟩
  · rw [hbits, decide_eq_true rfl, Bool.true_or]
  · intro f hf
    rw [hbits, decide_eq_false hf, Bool.false_or]
  · have hmax : v.pmm.maxPages = (pmmAlloc s.pmm).2.maxPages := by
      rw [hv, maxPages_freeFrames, h.maxPages, hsteady.maxPages_alloc]
    have hcount : v.pmm.freePages = (pmmAlloc s.pmm).2.freePages := by
      refine hsteady.alloc.freePages_eq (hv ▸ h.steady.freeFrames _) hmax fun q => ?_
      rw [hbits, hgiven.bits]
    rw [hcount]
    exact hgiven.freePages hsteady

/-- A machine with 64 pages, of which all but the first will be handed out. -/
def smallMachine : Machine Pmm.State where
  mem := fun _ _ => 0
  kernelPageDir := 0
  pmm :=
    { bitmap := fun _ => 0
      maxPages := 64
      usedPages := 0
      freePages := 64
      lastFound := 1 }

theorem steady_smallMachine : Steady smallMachine.pmm := ⟨⟨by decide, by decide +kernel⟩, by decide⟩

/-- An address space with one page is created and released, and one frame is lost. -/
theorem one_page_loses_directory : ∃ start t v,
    vmmCreateDir pmmAlloc smallMachine = (start, 1) ∧
      Run (AllocStep 1) start [⟨0x400000, pageSize, 7⟩] t ∧
      vmmFreeUserSpace pmmFree t 1 = (v, true) ∧ v.pmm.freePages + 1 = smallMachine.pmm.freePages := by
  have hcreate : (vmmCreateDir pmmAlloc smallMachine).2 = 1 := by decide +kernel
  have halloc : (vmmAlloc pmmAlloc pmmFree (vmmCreateDir pmmAlloc smallMachine).1 1 0x400000 pageSize
      7).2 = true := by decide +kernel
  generalize hstart : (vmmCreateDir pmmAlloc smallMachine).1 = start at halloc
  have hcreate : vmmCreateDir pmmAlloc smallMachine = (start, 1) := Prod.ext hstart hcreate
  generalize ht : (vmmAlloc pmmAlloc pmmFree start 1 0x400000 pageSize 7).1 = t
  have hrun : Run (AllocStep 1) start [⟨0x400000, pageSize, 7⟩] t :=
    .cons (Prod.ext ht halloc) (.nil t)
  have hproper : ∀ r ∈ [(⟨0x400000, pageSize, 7⟩ : VmmRequest)], r.Proper := by
    intro r hr
    rw [mem_singleton.mp hr]
    exact ⟨by decide, by decide⟩
  obtain ⟨v, hok, -, -, -, -, -, -, hcount⟩ :=
    directory_frame_is_lost steady_smallMachine hcreate (by decide) hrun hproper
  exact ⟨start, t, v, hcreate, hrun, hok, hcount⟩

/-- A directory that is created and released at once is still in use. -/
theorem empty_directory_is_lost :
    (vmmCreateDir pmmAlloc smallMachine).2 = 1 ∧ pmmTestBit smallMachine.pmm 1 = false ∧
      (vmmFreeUserSpace pmmFree (vmmCreateDir pmmAlloc smallMachine).1 1).2 = true ∧
      pmmTestBit (vmmFreeUserSpace pmmFree (vmmCreateDir pmmAlloc smallMachine).1 1).1.pmm 1 =
        true := by
  decide +kernel

end Taavi.X64
