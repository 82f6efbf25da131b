import Taavi.Memory.UserSpace

/-!
# The release of a user address space

`vmm_free_user_space` meets each frame of the address space once, so that exactly the frames that
were taken since the directory was created become free.
-/

namespace Taavi.Paging

open Lib Pmm List

section

variable {α : Type*} (free : α → ℕ → α × Bool)

/-- The loop over a page table. A page that cannot be freed is passed over. -/
def freeTablePages (s : Machine α) (table : ℕ) : Machine α :=
  { s with
    pmm := (List.range entriesPerTable).foldl (fun pmm j =>
      if (s.mem table j).testBit 0 then (free pmm (s.mem table j / pageSize * pageSize)).1
      else pmm) s.pmm }

/-- The loop of `vmm_free_user_space` over the entries of the directory. -/
def freeTables (dir : ℕ) : List ℕ → Machine α → Machine α × Bool
  | [], s => (s, true)
  | i :: is, s =>
    if (s.mem dir i).testBit 0 = false then freeTables dir is s
    else
      let ptPhys := s.mem dir i / pageSize * pageSize
      if ptPhys = 0 then freeTables dir is { s with mem := storeWord s.mem dir i 0 }
      else
        let s := freeTablePages free s (s.mem dir i / pageSize)
        match free s.pmm ptPhys with
        | (pmm, false) => ({ s with pmm }, false)
        | (pmm, true) => freeTables dir is { s with mem := storeWord s.mem dir i 0, pmm }

/-- `vmm_free_user_space`. `true` is `STATUS_OK`. -/
def vmmFreeUserSpace (s : Machine α) (dir : ℕ) : Machine α × Bool :=
  if dir = 0 then (s, false)
  else
    match freeTables free dir (List.range (kernelVirtualBase / 2 ^ 22)) s with
    | (s, false) => (s, false)
    | (s, true) => ({ s with pmm := (free s.pmm (dir * pageSize)).1 },
        (free s.pmm (dir * pageSize)).2)

end

/-- The slots of a directory entry, in the order of the walk. -/
def tableSlots (i : ℕ) : List Slot := (List.range entriesPerTable).map (.page i) ++ [.table i]

def userSlots : List Slot := (List.range kernelPdIndexStart).flatMap tableSlots ++ [.directory]

/-- The frames of an address space, in the order in which they are given back. -/
def userFrames {α : Type*} (s : Machine α) (dir : ℕ) : List ℕ := userSlots.filterMap (heldFrame s dir)

/-- Give back frames one after the other. -/
def freeFrames (pmm : Pmm.State) (frames : List ℕ) : Pmm.State :=
  frames.foldl (fun pmm frame => (pmmFree pmm (frame * pageSize)).1) pmm

variable {s t u : Machine Pmm.State} {dir frame : ℕ} {pages : ℕ → Prop} {pmm : Pmm.State}

theorem freeFrames_append (pmm : Pmm.State) (l l' : List ℕ) :
    freeFrames pmm (l ++ l') = freeFrames (freeFrames pmm l) l' := foldl_append

theorem pmmTestBit_freeFrames (pmm : Pmm.State) (l : List ℕ) (q : ℕ) :
    pmmTestBit (freeFrames pmm l) q = (decide (q ∉ l) && pmmTestBit pmm q) := by
  induction l generalizing pmm with
  | nil => simp [freeFrames]
  | cons frame l ih =>
    show pmmTestBit (freeFrames (pmmFree pmm (frame * pageSize)).1 l) q = _
    rw [ih, pmmTestBit_pmmFree, Nat.mul_div_cancel frame (by decide), ← Bool.and_assoc,
      ← Bool.decide_and]
    congr 1
    simp only [mem_cons, not_or, decide_eq_decide]
    exact and_comm

theorem used_freeFrames {l : List ℕ} (hused : pmmTestBit pmm frame = true) (hnot : frame ∉ l) :
    pmmTestBit (freeFrames pmm l) frame = true := by
  rw [pmmTestBit_freeFrames, hused, decide_eq_true hnot, Bool.and_true]

theorem pmmFree_ok (hused : pmmTestBit pmm frame = true) :
    pmmFree pmm (frame * pageSize) = ((pmmFree pmm (frame * pageSize)).1, true) := by
  have hne : ¬pmmTestBit pmm (frame * pageSize / pageSize) = false := by
    rw [Nat.mul_div_cancel frame (by decide), hused]
    decide
  unfold pmmFree
  rw [if_neg hne]

theorem nodup_tableSlots (i : ℕ) : (tableSlots i).Nodup := by
  refine nodup_append.mpr ⟨?_, nodup_singleton _, ?_⟩
  · exact nodup_range.map fun j j' h => (Slot.page.inj h).2
  · rintro a ha b hb rfl
    obtain ⟨j, -, rfl⟩ := mem_map.mp ha
    cases mem_singleton.mp hb

theorem mem_tableSlots {i : ℕ} {slot : Slot} : slot ∈ tableSlots i ↔
    slot = .table i ∨ ∃ j < entriesPerTable, slot = .page i j := by
  unfold tableSlots
  rw [mem_append, mem_map, mem_singleton, or_comm]
  simp only [mem_range, eq_comm]

theorem nodup_userSlots : userSlots.Nodup := by
  refine nodup_append.mpr ⟨?_, nodup_singleton _, ?_⟩
  · refine nodup_flatMap.mpr ⟨fun i _ => nodup_tableSlots i, ?_⟩
    refine nodup_range.imp fun {i i'} hne slot hslot hslot' => hne ?_
    rcases mem_tableSlots.mp hslot with rfl | ⟨j, -, rfl⟩
    · rcases mem_tableSlots.mp hslot' with h | ⟨j', -, h⟩
      · exact Slot.table.inj h
      · cases h
    · rcases mem_tableSlots.mp hslot' with h | ⟨j', -, h⟩
      · cases h
      · exact (Slot.page.inj h).1
  · rintro a ha b hb rfl
    obtain rfl := mem_singleton.mp hb
    obtain ⟨i, -, hi⟩ := mem_flatMap.mp ha
    rcases mem_tableSlots.mp hi with h | ⟨j, -, h⟩
    · cases h
    · cases h

theorem mem_userSlots {slot : Slot} (h : heldFrame s dir slot = some frame) : slot ∈ userSlots := by
  refine mem_append.mpr ?_
  cases slot with
  | directory => exact .inr (mem_singleton.mpr rfl)
  | table i =>
    left
    unfold heldFrame at h
    dsimp only at h
    split_ifs at h with hi
    exact mem_flatMap.mpr ⟨i, mem_range.mpr hi, mem_tableSlots.mpr (.inl rfl)⟩
  | page i j =>
    left
    unfold heldFrame at h
    dsimp only at h
    split_ifs at h with hbounds
    exact mem_flatMap.mpr ⟨i, mem_range.mpr hbounds.1,
      mem_tableSlots.mpr (.inr ⟨j, hbounds.2, rfl⟩)⟩

def tablePages {α : Type*} (s : Machine α) (table : ℕ) : List ℕ :=
  (List.range entriesPerTable).filterMap fun j => tableOf (s.mem table j)

theorem heldFrame_tableSlots {i : ℕ} (hi : i < kernelPdIndexStart) :
    (tableSlots i).filterMap (heldFrame s dir) =
      match tableOf (s.mem dir i) with
      | none => []
      | some table => tablePages s table ++ [table] := by
  have hpages : ∀ j ∈ List.range entriesPerTable, (heldFrame s dir ∘ Slot.page i) j =
      (tableOf (s.mem dir i)).bind fun table => tableOf (s.mem table j) := fun j hj =>
    heldFrame_page hi (mem_range.mp hj)
  unfold tableSlots
  rw [filterMap_append, filterMap_map, filterMap_congr hpages]
  cases htable : tableOf (s.mem dir i) with
  | none => simp [heldFrame_table hi, htable]
  | some table => simp [heldFrame_table hi, htable, tablePages]

theorem freeTablePages_eq (s : Machine Pmm.State) (table : ℕ) : freeTablePages pmmFree s table =
    { s with pmm := freeFrames s.pmm (tablePages s table) } := by
  have hloop : ∀ (entries : List ℕ) (pmm : Pmm.State), entries.foldl (fun pmm j =>
      if (s.mem table j).testBit 0 = true then (pmmFree pmm (s.mem table j / pageSize * pageSize)).1
      else pmm) pmm = freeFrames pmm (entries.filterMap fun j => tableOf (s.mem table j)) := by
    intro entries
    induction entries with
    | nil => exact fun pmm => rfl
    | cons j entries ih =>
      intro pmm
      rw [foldl_cons, ih, filterMap_cons]
      unfold tableOf
      split <;> rfl
  unfold freeTablePages tablePages
  rw [hloop]

theorem freeTables_spec {is : List ℕ} (hapart : Apart t dir)
    (hnonzero : ∀ slot frame, heldFrame t dir slot = some frame → frame ≠ 0) (his : is.Nodup)
    (hlt : ∀ i ∈ is, i < kernelPdIndexStart) (hmem : ∀ f, f ≠ dir → u.mem f = t.mem f)
    (hdir : ∀ i ∈ is, u.mem dir i = t.mem dir i)
    (hframes : ((is.flatMap tableSlots).filterMap (heldFrame t dir)).Nodup)
    (hused : ∀ f ∈ (is.flatMap tableSlots).filterMap (heldFrame t dir), pmmTestBit u.pmm f = true) :
    ∃ v, freeTables pmmFree dir is u = (v, true) ∧
      v.pmm = freeFrames u.pmm ((is.flatMap tableSlots).filterMap (heldFrame t dir)) ∧
      (∀ f, f ≠ dir → v.mem f = t.mem f) ∧ v.kernelPageDir = u.kernelPageDir := by
  induction is generalizing u with
  | nil => exact ⟨u, rfl, rfl, hmem, rfl⟩
  | cons i is ih =>
    obtain ⟨hnot, his⟩ := nodup_cons.mp his
    have hi := hlt i mem_cons_self
    have hentry : u.mem dir i = t.mem dir i := hdir i mem_cons_self
    have hlt' : ∀ k ∈ is, k < kernelPdIndexStart := fun k hk => hlt k (mem_cons_of_mem i hk)
    have hdir' : ∀ k ∈ is, u.mem dir k = t.mem dir k := fun k hk => hdir k (mem_cons_of_mem i hk)
    rw [flatMap_cons, filterMap_append, heldFrame_tableSlots hi] at hframes hused ⊢
    unfold freeTables
    rw [hentry]
    cases htable : tableOf (t.mem dir i) with
    | none =>
      rw [if_pos (tableOf_eq_none.mp htable)]
      rw [htable] at hframes hused
      exact ih his hlt' hmem hdir' hframes hused
    | some table =>
      rw [htable] at hframes hused
      dsimp only at hframes hused ⊢
      have hpres : ¬(t.mem dir i).testBit 0 = false := by
        rw [← tableOf_eq_none, htable]
        simp
      have hdiv : t.mem dir i / pageSize = table := by
        unfold tableOf at htable
        split_ifs at htable
        exact Option.some.inj htable
      have hslot : heldFrame t dir (.table i) = some table := (heldFrame_table hi).trans htable
      have hphys : ¬table * pageSize = 0 := by
        have hne := hnonzero _ _ hslot
        unfold pageSize
        omega
      have htablemem : u.mem table = t.mem table := hmem table (hapart.table_ne hi htable)
      have hpages : tablePages u table = tablePages t table := by
        unfold tablePages
        rw [htablemem]
      obtain ⟨hpagesNodup, hrestNodup, hdisj⟩ := nodup_append.mp hframes
      -- the table is not one of its own pages, so it is still in use after them
      have htableUsed : pmmTestBit (freeFrames u.pmm (tablePages t table)) table = true := by
        refine used_freeFrames (hused table (by simp)) fun hmem => ?_
        exact (nodup_append.mp hpagesNodup).2.2 table hmem table (by simp) rfl
      rw [if_neg hpres, hdiv, if_neg hphys, freeTablePages_eq, hpages]
      dsimp only
      rw [pmmFree_ok htableUsed]
      have hfreed : (pmmFree (freeFrames u.pmm (tablePages t table)) (table * pageSize)).1 =
          freeFrames u.pmm (tablePages t table ++ [table]) := by
        rw [freeFrames_append]
        rfl
      dsimp only
      rw [hfreed, freeFrames_append _ (tablePages t table ++ [table])]
      have hnext := ih (u := { u with
        mem := storeWord u.mem dir i 0
        pmm := freeFrames u.pmm (tablePages t table ++ [table]) }) his hlt' ?_ ?_ hrestNodup ?_
      · dsimp only at hnext
        exact hnext
      · intro f hf
        rw [← hmem f hf]
        funext k
        exact storeWord_of_ne _ _ _ _ hf
      · intro k hk
        have hki : k ≠ i := fun heq => hnot (heq ▸ hk)
        rw [← hdir' k hk]
        show storeWord u.mem dir i 0 dir k = u.mem dir k
        rw [storeWord_apply, if_neg (fun heq => hki heq.2)]
      · intro f hf
        dsimp only
        exact used_freeFrames (hused f (mem_append_right _ hf)) fun hmem =>
          hdisj f hmem f hf rfl

theorem UserSpace.vmmFreeUserSpace (h : UserSpace s dir pages t) :
    ∃ v, Paging.vmmFreeUserSpace pmmFree t dir = (v, true) ∧
      v.pmm = freeFrames t.pmm (userFrames t dir) ∧
      (∀ f, f ≠ dir → v.mem f = t.mem f) ∧ v.kernelPageDir = t.kernelPageDir := by
  have hnodup : (userFrames t dir).Nodup := h.holdings.nodup_filterMap nodup_userSlots
  have hused : ∀ f ∈ userFrames t dir, pmmTestBit t.pmm f = true := by
    intro f hf
    obtain ⟨slot, -, hslot⟩ := mem_filterMap.mp hf
    exact h.holdings.used hslot
  have hsplit : userFrames t dir = ((List.range kernelPdIndexStart).flatMap tableSlots).filterMap
      (heldFrame t dir) ++ [dir] := by
    unfold userFrames userSlots
    rw [filterMap_append]
    rfl
  rw [hsplit] at hnodup hused ⊢
  generalize hframes : ((List.range kernelPdIndexStart).flatMap tableSlots).filterMap
    (heldFrame t dir) = frames at hnodup hused ⊢
  obtain ⟨htables, -, hdisj⟩ := nodup_append.mp hnodup
  obtain ⟨v, hwalk, hpmm, hmem, hker⟩ := freeTables_spec h.apart h.nonzero nodup_range
    (fun i hi => mem_range.mp hi) (fun _ _ => rfl) (fun _ _ => rfl) (hframes ▸ htables)
    (fun f hf => hused f (mem_append_left _ (hframes ▸ hf)))
  rw [hframes] at hpmm
  have hdir : pmmTestBit v.pmm dir = true := by
    rw [hpmm]
    exact used_freeFrames (hused dir (by simp)) fun hin => hdisj dir hin dir (by simp) rfl
  refine ⟨{ v with pmm := (pmmFree v.pmm (dir * pageSize)).1 }, ?_, ?_, hmem, hker⟩
  · unfold Paging.vmmFreeUserSpace
    rw [if_neg (h.nonzero .directory dir rfl),
      show kernelVirtualBase / 2 ^ 22 = kernelPdIndexStart from rfl, hwalk]
    dsimp only
    rw [pmmFree_ok hdir]
  · rw [freeFrames_append, ← hpmm]
    rfl

/-- After `vmm_alloc` calls with disjoint ranges on a new directory, `vmm_free_user_space` gives
back the directory, its user page tables and its pages, each once, and nothing else. -/
theorem teardown_is_exact {start : Machine Pmm.State} {rs : List VmmRequest}
    (hcursor : s.pmm.lastFound ≤ maxPages)
    (hcreate : vmmCreateDirectory pmmAlloc s = (start, dir)) (hdir : dir ≠ 0)
    (hrun : Run (AllocStep dir) start rs t) (hproper : ∀ r ∈ rs, r.Proper)
    (hdisjoint : rs.Pairwise VmmRequest.Disjoint) :
    ∃ v, vmmFreeUserSpace pmmFree t dir = (v, true) ∧
      v.pmm = freeFrames t.pmm (userFrames t dir) ∧ (userFrames t dir).Nodup ∧
      (∀ f, f ∈ userFrames t dir ↔ pmmTestBit s.pmm f = false ∧ pmmTestBit t.pmm f = true) ∧
      (∀ f, pmmTestBit v.pmm f = pmmTestBit s.pmm f) ∧
      ∀ f, pmmTestBit s.pmm f = true →
        pmmTestBit t.pmm f = true ∧ t.mem f = s.mem f ∧ v.mem f = s.mem f := by
  obtain ⟨pages, h⟩ := (userSpace_create hcursor hcreate hdir).vmmAllocs hrun hproper hdisjoint
    (fun _ _ _ _ => id)
  obtain ⟨v, hok, hpmm, hmem, -⟩ := h.vmmFreeUserSpace
  have hall : ∀ slot f, heldFrame t dir slot = some f → slot ∈ userSlots := fun _ _ => mem_userSlots
  refine ⟨v, hok, hpmm, h.holdings.nodup_filterMap nodup_userSlots,
    fun f => h.holdings.mem_filterMap hall, ?_, ?_⟩
  · refine h.holdings.giveBack hall fun f => ?_
    rw [hpmm, pmmTestBit_freeFrames, Bool.and_eq_true, decide_eq_true_iff]
    rfl
  · intro f hf
    have hslot : heldFrame t dir .directory = some dir := rfl
    have hne := h.ne_of_held hslot hf
    exact ⟨h.holdings.kept f hf, h.memory f hf, (hmem f hne).trans (h.memory f hf)⟩

/-- No frame from the cursor on is in use. -/
def ClearFrom (pmm : Pmm.State) (page : ℕ) : Prop :=
  pmm.lastFound = page ∧ ∀ q, page ≤ q → pmmTestBit pmm q = false

theorem ClearFrom.alloc {page : ℕ} (h : ClearFrom pmm page) (hlt : page < maxPages) :
    (pmmAlloc pmm).1 = page * pageSize ∧ ClearFrom (pmmAlloc pmm).2 (page + 1) := by
  obtain ⟨hcursor, hclear⟩ := h
  have heq := pmmAlloc_of_first hcursor.le hlt (hclear page le_rfl)
    fun q hq hqlt => absurd hqlt (by omega)
  rw [heq]
  refine ⟨?_, rfl, fun q hq => ?_⟩
  · show page * pageSize % 2 ^ 32 = page * pageSize
    unfold maxPages at hlt
    unfold pageSize
    omega
  · rw [pmmTestBit_takePage, decide_eq_false (by omega), hclear q (by omega), Bool.false_or]

theorem vmmAlloc_page_ok {page virt flags : ℕ} (h : ClearFrom s.pmm page) (hpage : page ≠ 0)
    (hlt : page + 1 < maxPages) (hdir : dir ≠ 0) :
    ∃ t, AllocStep dir s ⟨virt, pageSize, flags⟩ t := by
  obtain ⟨haddr, hnext⟩ := h.alloc (by omega)
  obtain ⟨haddr', -⟩ := hnext.alloc hlt
  have hne : ¬(pmmAlloc s.pmm).1 = 0 := by
    rw [haddr]
    unfold pageSize
    omega
  have hok : (vmmAlloc pmmAlloc pmmFree s dir virt pageSize flags).2 = true := by
    have hcount : (pageSize + pageSize - 1) % 2 ^ 32 / pageSize = 1 := by decide
    unfold vmmAlloc
    rw [if_neg hdir, hcount]
    unfold vmmAllocLoop
    dsimp only
    rw [if_neg hne]
    rcases pagingMap_cases (s := { s with pmm := (pmmAlloc s.pmm).2 }) hdir virt (pmmAlloc s.pmm).1
      flags with ⟨v, -, heq⟩ | ⟨-, hzero, -⟩
    · rw [heq]
      rfl
    · exfalso
      have hzero' : (pmmAlloc (pmmAlloc s.pmm).2).1 = 0 := hzero
      rw [haddr'] at hzero'
      unfold pageSize at hzero'
      omega
  exact ⟨_, Prod.ext rfl hok⟩

theorem exists_one_page {page virt flags : ℕ} (h : ClearFrom s.pmm page) (hpage : page ≠ 0)
    (hlt : page + 2 < maxPages) : ∃ start t,
    vmmCreateDirectory pmmAlloc s = (start, page) ∧
      Run (AllocStep page) start [⟨virt, pageSize, flags⟩] t := by
  obtain ⟨haddr, hnext⟩ := h.alloc (by omega)
  have hcreate := pagingCreateDirectory_eq haddr hpage
  obtain ⟨t, hstep⟩ := vmmAlloc_page_ok (s := { s with
    mem := assign s.mem page (directoryContent s), pmm := (pmmAlloc s.pmm).2 }) hnext
    (Nat.succ_ne_zero page) (by omega) hpage
  exact ⟨_, t, hcreate, .cons hstep (.nil t)⟩

def blankMachine : Machine Pmm.State :=
  { mem := fun _ _ => 0
    kernelPageDir := 256
    pmm := { bitmap := fun _ => 0, usedPages := 0, freePages := 0, lastFound := 512,
             totalMemBytes := 0 } }

theorem clearFrom_blankMachine : ClearFrom blankMachine.pmm 512 :=
  ⟨rfl, fun _ _ => by simp [blankMachine, pmmTestBit, testBit]⟩

/-- An address space with one page. -/
theorem one_page_teardown : ∃ start t v,
    vmmCreateDirectory pmmAlloc blankMachine = (start, 512) ∧
      Run (AllocStep 512) start [⟨0x400000, pageSize, 7⟩] t ∧
      vmmFreeUserSpace pmmFree t 512 = (v, true) ∧
      ∀ f, pmmTestBit v.pmm f = pmmTestBit blankMachine.pmm f := by
  have hproper : ∀ r ∈ [(⟨0x400000, pageSize, 7⟩ : VmmRequest)], r.Proper := by
    intro r hr
    obtain rfl := mem_singleton.mp hr
    exact ⟨by decide, by decide, by decide⟩
  have hclear := clearFrom_blankMachine
  generalize blankMachine = s at hclear ⊢
  obtain ⟨start, t, hcreate, hrun⟩ := exists_one_page hclear (by decide) (by decide)
  have hcursor : s.pmm.lastFound ≤ maxPages := hclear.1.le.trans (by decide)
  obtain ⟨v, hok, -, -, -, hbits, -⟩ := teardown_is_exact hcursor hcreate (by decide) hrun hproper
    (pairwise_singleton _ _)
  exact ⟨start, t, v, hcreate, hrun, hok, hbits⟩

end Taavi.Paging
