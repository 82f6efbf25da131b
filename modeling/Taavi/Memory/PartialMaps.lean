import Taavi.Lib.Runs
import Taavi.Memory.PageTables

/-!
# Page tables as partial maps

A directory stands for a partial map from pages to frames. Lookups are compared with the maps that
the calls of `paging_map` and `paging_unmap` describe.
-/

namespace Taavi.Paging

open Lib

variable {α : Type*}

/-- The machine, and the directories that exist. -/
structure Session (α : Type*) where
  machine : Machine α
  dirs : List ℕ

/-- A call, with what it returns. -/
inductive Event where
  | created (dir : ℕ)
  | map (dir virt phys flags : ℕ) (ok : Bool)
  | unmap (dir virt : ℕ) (ok : Bool)

namespace Event

/-- The call changes the pages of the directory. -/
def On (dir : ℕ) : Event → Prop
  | created _ => False
  | map dir' _ _ _ _ => dir' = dir
  | unmap dir' _ _ => dir' = dir

/-- The address that a call on pages names. -/
def virt : Event → Option ℕ
  | created _ => none
  | map _ virt _ _ _ => some virt
  | unmap _ virt _ => some virt

/-- The partial map of a directory after a call on it. -/
def track (pages : ℕ → Option ℕ) : Event → ℕ → Option ℕ
  | created _ => pages
  | map _ virt phys _ true => assign pages (virt / pageSize) (some phys)
  | map _ _ _ _ false => pages
  | unmap _ virt _ => assign pages (virt / pageSize) none

end Event

namespace Session

def roots (s : Session α) (dir : ℕ) : Prop := dir ∈ s.dirs

/-- The kernel's directory and its tables, before any other directory is made. -/
structure Booted (s : Session α) : Prop where
  tables : Tables s.roots s.machine
  dirs : s.dirs = [s.machine.kernelPageDir]

def frameOf (s : Session α) (dir page : ℕ) : Option ℕ :=
  (pageEntry s.machine dir (page * pageSize)).map fun entry => entry / pageSize * pageSize

/-- The pages that a new directory has from the beginning: those of the kernel. -/
def inherited (s : Session α) (page : ℕ) : Option ℕ :=
  if kernelVirtualBase ≤ page * pageSize then s.frameOf s.machine.kernelPageDir page else none

def NoTable (s : Session α) (dir virt : ℕ) : Prop :=
  tableOf (s.machine.mem dir (pdIndex virt)) = none

end Session

/-- One call, with frames in no use, 32-bit addresses and flags outside the frame's bits. -/
inductive Step (alloc : α → ℕ × α) : Session α → Event → Session α → Prop
  | created {s : Session α}
      (hfresh : FreshAnswer s.roots s.machine.mem (alloc s.machine.pmm).1) :
      Step alloc s (.created (pagingCreateDirectory alloc s.machine).2)
        { machine := (pagingCreateDirectory alloc s.machine).1
          dirs := if (pagingCreateDirectory alloc s.machine).2 = 0 then s.dirs
            else (pagingCreateDirectory alloc s.machine).2 :: s.dirs }
  | map {s : Session α} {dir virt phys flags : ℕ} (hdir : dir ∈ s.dirs) (hvirt : virt < 2 ^ 32)
      (hphys : pageSize ∣ phys) (hflags : flags < pageSize)
      (hfresh : FreshAnswer s.roots s.machine.mem (alloc s.machine.pmm).1) :
      Step alloc s (.map dir virt phys flags (pagingMap alloc s.machine dir virt phys flags).2)
        { s with machine := (pagingMap alloc s.machine dir virt phys flags).1 }
  | unmap {s : Session α} {dir virt : ℕ} (hdir : dir ∈ s.dirs) (hvirt : virt < 2 ^ 32) :
      Step alloc s (.unmap dir virt (pagingUnmap s.machine dir virt).2)
        { s with machine := (pagingUnmap s.machine dir virt).1 }

variable {alloc : α → ℕ × α} {s t : Session α} {e : Event} {dir : ℕ}

theorem Step.tables (hstep : Step alloc s e t) (htables : Tables s.roots s.machine) :
    Tables t.roots t.machine := by
  cases hstep with
  | created hfresh =>
    rcases htables.pagingCreateDirectory hfresh with ⟨hne, hcreated⟩ | hfailed
    · have hroots : Session.roots (α := α) ⟨(pagingCreateDirectory alloc s.machine).1,
          (pagingCreateDirectory alloc s.machine).2 :: s.dirs⟩ =
          fun d => d = (pagingCreateDirectory alloc s.machine).2 ∨ s.roots d := by
        funext d
        simp [Session.roots]
      rw [if_neg hne, hroots]
      exact hcreated.tables
    · rw [hfailed]
      exact { htables with }
  | map hdir _ _ _ hfresh =>
    rcases htables.pagingMap hdir hfresh _ _ _ with ⟨-, hmap⟩ | hfailed
    · exact hmap.tables
    · rw [hfailed]
      exact { htables with }
  | unmap hdir _ =>
    rcases htables.pagingUnmap hdir _ with ⟨-, hmap, -⟩ | ⟨hnone, -⟩
    · exact hmap.tables
    · rw [hnone]
      exact htables

theorem tables_of_run {es : List Event} (hrun : Run (Step alloc) s es t)
    (htables : Tables s.roots s.machine) : Tables t.roots t.machine :=
  hrun.invariant (fun _ _ _ h hstep => hstep.tables h) htables

/-- What a call on the pages of a directory does. -/
inductive PageCall (dir : ℕ) (s : Session α) : Event → Session α → Prop
  | mapped {t : Session α} {virt phys flags : ℕ} (hphys : pageSize ∣ phys) (hflags : flags < pageSize)
      (h : Mapped s.roots s.machine dir virt (phys ||| flags ||| pagePresent) t.machine) :
      PageCall dir s (.map dir virt phys flags true) t
  | unmapped {t : Session α} {virt : ℕ} (h : Mapped s.roots s.machine dir virt 0 t.machine)
      (htable : ¬s.NoTable dir virt) : PageCall dir s (.unmap dir virt true) t
  | full {t : Session α} {virt phys flags : ℕ} (h : t.machine.mem = s.machine.mem) :
      PageCall dir s (.map dir virt phys flags false) t
  | missing {t : Session α} {virt : ℕ} (htable : s.NoTable dir virt)
      (h : t.machine.mem = s.machine.mem) : PageCall dir s (.unmap dir virt false) t

theorem Step.pageCall (hstep : Step alloc s e t) (htables : Tables s.roots s.machine)
    (hon : e.On dir) : PageCall dir s e t ∧ dir ∈ s.dirs := by
  cases hstep with
  | created => exact hon.elim
  | map hdir hvirt hphys hflags hfresh =>
    obtain rfl := hon
    refine ⟨?_, hdir⟩
    rcases htables.pagingMap hdir hfresh _ _ _ with ⟨hok, hmap⟩ | hfailed
    · rw [hok]
      exact .mapped hphys hflags hmap
    · rw [hfailed]
      exact .full rfl
  | unmap hdir hvirt =>
    obtain rfl := hon
    refine ⟨?_, hdir⟩
    rcases htables.pagingUnmap hdir _ with ⟨hok, hmap, htable⟩ | ⟨hnone, htable⟩
    · rw [hok]
      exact .unmapped hmap htable
    · rw [hnone]
      exact .missing htable rfl

theorem samePage_page {virt page : ℕ} : SamePage virt (page * pageSize) ↔ page = virt / pageSize := by
  unfold SamePage
  rw [Nat.mul_div_cancel page (by decide)]
  exact eq_comm

theorem frameOf_congr (hmem : t.machine.mem = s.machine.mem) : t.frameOf dir = s.frameOf dir := by
  funext page
  unfold Session.frameOf pageEntry pageWord
  rw [hmem]

theorem Mapped.frameOf {virt word : ℕ} (h : Mapped s.roots s.machine dir virt word t.machine) :
    t.frameOf dir = assign (s.frameOf dir) (virt / pageSize)
      ((presentEntry word).map fun entry => entry / pageSize * pageSize) := by
  funext page
  rw [assign_apply]
  unfold Session.frameOf
  by_cases hpage : page = virt / pageSize
  · rw [if_pos hpage, h.pageEntry_same (samePage_page.mpr hpage)]
  · rw [if_neg hpage, h.pageEntry_other (fun hsame => hpage (samePage_page.mp hsame))]

theorem frameOf_of_noTable {virt : ℕ} (htable : s.NoTable dir virt) :
    s.frameOf dir (virt / pageSize) = none := by
  unfold Session.frameOf pageEntry
  rw [pageWord_congr (samePage_page.mpr rfl).symm, pageWord_eq_none.mpr htable]
  rfl

theorem PageCall.frameOf (h : PageCall dir s e t) : t.frameOf dir = Event.track (s.frameOf dir) e := by
  cases h with
  | mapped hphys hflags hmap =>
    rw [hmap.frameOf]
    unfold presentEntry
    rw [if_pos (testBit_pageWord _ _), Option.map_some, pageWord_div_pageSize _ hflags,
      Nat.div_mul_cancel hphys]
    rfl
  | unmapped hmap htable =>
    rw [hmap.frameOf]
    rfl
  | full hmem => exact frameOf_congr hmem
  | missing htable hmem =>
    rename_i virt
    rw [frameOf_congr hmem]
    funext page
    simp only [Event.track, assign_apply]
    split
    · rename_i hpage
      rw [hpage, frameOf_of_noTable htable]
    · rfl

theorem pagingGetPhys_of_frameOf {virt phys : ℕ} (hdir : dir ≠ 0)
    (hframe : s.frameOf dir (virt / pageSize) = some phys) :
    pagingGetPhys s.machine dir virt = phys := by
  rw [pagingGetPhys_eq hdir, pageWord_congr (samePage_page.mpr rfl)]
  unfold Session.frameOf pageEntry presentEntry at hframe
  cases hword : pageWord s.machine dir (virt / pageSize * pageSize) with
  | none =>
    rw [hword] at hframe
    cases hframe
  | some word =>
    rw [hword, Option.bind_some] at hframe
    split at hframe
    · simpa using hframe
    · cases hframe

theorem Step.frameOf_created (hstep : Step alloc s (.created dir) t)
    (htables : Tables s.roots s.machine) (hdir : dir ≠ 0) : t.frameOf dir = s.inherited := by
  cases hstep with
  | created hfresh =>
    rcases htables.pagingCreateDirectory hfresh with ⟨hne, hcreated⟩ | hfailed
    · funext page
      have hhalf : kernelVirtualBase ≤ page * pageSize ↔
          kernelPdIndexStart ≤ pdIndex (page * pageSize) := by
        unfold kernelVirtualBase kernelPdIndexStart pdIndex
        omega
      unfold Session.inherited Session.frameOf pageEntry
      dsimp only
      by_cases hpage : kernelVirtualBase ≤ page * pageSize
      · rw [if_pos hpage, hcreated.kernel _ (hhalf.mp hpage)]
      · rw [if_neg hpage, hcreated.user _ (by omega)]
        rfl
    · exact absurd (by rw [hfailed]) hdir

theorem PageCall.other_pages (h : PageCall dir s e t) (hdir : dir ≠ 0) {virt virt' : ℕ}
    (hvirt : e.virt = some virt) (hpage : ¬SamePage virt virt')
    (htable : pdIndex virt = pdIndex virt' → ¬s.NoTable dir virt') :
    pagingGetPhys t.machine dir virt' = pagingGetPhys s.machine dir virt' := by
  have hword : ∀ {word : ℕ}, Mapped s.roots s.machine dir virt word t.machine →
      pageWord t.machine dir virt' = pageWord s.machine dir virt' := by
    intro word hmap
    rw [hmap.other virt' hpage]
    split
    · rename_i hindex
      obtain ⟨old, hold⟩ := Option.ne_none_iff_exists'.mp
        (fun hnone => htable hindex.symm (pageWord_eq_none.mp hnone))
      rw [hold]
      rfl
    · rfl
  rw [pagingGetPhys_eq hdir, pagingGetPhys_eq hdir]
  cases h with
  | mapped _ _ hmap =>
    cases hvirt
    rw [hword hmap]
  | unmapped hmap _ =>
    cases hvirt
    rw [hword hmap]
  | full hmem => simp only [pageWord, hmem]
  | missing _ hmem => simp only [pageWord, hmem]

theorem PageCall.other_directory (h : PageCall dir s e t) (hdir : dir ∈ s.dirs) {dir' virt' : ℕ}
    (hdir' : dir' ∈ s.dirs) (hnull : dir' ≠ 0) (hne : dir' ≠ dir)
    (hvirt' : virt' < kernelVirtualBase) :
    pagingGetPhys t.machine dir' virt' = pagingGetPhys s.machine dir' virt' := by
  have hword : ∀ {virt word : ℕ}, Mapped s.roots s.machine dir virt word t.machine →
      pageWord t.machine dir' virt' = pageWord s.machine dir' virt' := by
    intro virt word hmap
    apply hmap.apart dir' virt' hdir' hne
    rintro ⟨hpage, hsame⟩
    have huser : pdIndex virt < kernelPdIndexStart := by
      rw [(samePage_iff.mp hpage).1]
      unfold kernelVirtualBase at hvirt'
      unfold pdIndex kernelPdIndexStart
      omega
    exact hmap.tables.not_sameTable hdir hdir' hne huser hmap.table hsame
  rw [pagingGetPhys_eq hnull, pagingGetPhys_eq hnull]
  cases h with
  | mapped _ _ hmap => rw [hword hmap]
  | unmapped hmap _ => rw [hword hmap]
  | full hmem => simp only [pageWord, hmem]
  | missing _ hmem => simp only [pageWord, hmem]

theorem frameOf_of_run {es : List Event} (hrun : Run (Step alloc) s es t)
    (htables : Tables s.roots s.machine) (hon : ∀ e ∈ es, Event.On dir e) :
    t.frameOf dir = es.foldl Event.track (s.frameOf dir) := by
  induction hrun with
  | nil => rfl
  | cons hstep _ ih =>
    obtain ⟨hcall, -⟩ := hstep.pageCall htables (hon _ (by simp))
    rw [ih (hstep.tables htables) (fun e he => hon e (by simp [he])), hcall.frameOf]
    rfl

/-- After any calls on a directory, `paging_get_phys` gives the frame of the last map of a page that
was not unmapped since, and `INVALID_PHYSICAL_PAGE` for a page without a page table. A further call
leaves the other pages whose region gets no table, and the user half of every other directory. -/
theorem directory_refines_partial_map {start before after final : Session α}
    {earlier calls : List Event} (hstart : start.Booted)
    (hearlier : Run (Step alloc) start earlier before)
    (hcreated : Step alloc before (.created dir) after) (hdir : dir ≠ 0)
    (hrun : Run (Step alloc) after calls final) (hon : ∀ e ∈ calls, Event.On dir e) :
    (∀ virt, calls.foldl Event.track before.inherited (virt / pageSize) ≠ none ∨
        final.NoTable dir virt →
      pagingGetPhys final.machine dir virt =
        (calls.foldl Event.track before.inherited (virt / pageSize)).getD invalidPhysicalPage) ∧
    ∀ e next, Step alloc final e next → Event.On dir e →
      (∀ virt virt', e.virt = some virt → ¬SamePage virt virt' →
        (pdIndex virt = pdIndex virt' → ¬final.NoTable dir virt') →
        pagingGetPhys next.machine dir virt' = pagingGetPhys final.machine dir virt') ∧
      ∀ dir' virt', dir' ∈ final.dirs → dir' ≠ dir → virt' < kernelVirtualBase →
        pagingGetPhys next.machine dir' virt' = pagingGetPhys final.machine dir' virt' := by
  have hbefore := tables_of_run hearlier hstart.tables
  have hafter := hcreated.tables hbefore
  have hfinal := tables_of_run hrun hafter
  have hframes : final.frameOf dir = calls.foldl Event.track before.inherited := by
    rw [frameOf_of_run hrun hafter hon, hcreated.frameOf_created hbefore hdir]
  refine ⟨?_, ?_⟩
  · intro virt hcondition
    rw [← hframes] at hcondition ⊢
    cases hframe : final.frameOf dir (virt / pageSize) with
    | some phys => exact pagingGetPhys_of_frameOf hdir hframe
    | none =>
      have htable := hcondition.resolve_left (fun hne => hne hframe)
      rw [pagingGetPhys_eq hdir, pageWord_eq_none.mpr htable]
      rfl
  · intro e next hstep hone
    obtain ⟨hcall, hmem⟩ := hstep.pageCall hfinal hone
    refine ⟨fun virt virt' hvirt hpage htable => hcall.other_pages hdir hvirt hpage htable, ?_⟩
    intro dir' virt' hdir' hne hvirt'
    exact hcall.other_directory hmem hdir' (hfinal.nonzero dir' hdir') hne hvirt'

/-- A memory manager that gives one frame after the other. -/
def nextFrame (frame : ℕ) : ℕ × ℕ := (frame * pageSize, frame + 1)

/-- A machine whose kernel has mapped nothing. -/
def emptySession : Session ℕ :=
  { machine := { mem := fun _ _ => 0, kernelPageDir := 100, pmm := 1 }, dirs := [100] }

theorem emptySession_booted : emptySession.Booted := by
  refine ⟨⟨TableTree.of_empty fun root i _ => tableOf_zero, by simp [Session.roots, emptySession], ?_⟩,
    rfl⟩
  intro dir hdir
  simp only [Session.roots, emptySession, List.mem_singleton] at hdir
  omega

theorem freshAnswer_of_unnamed {mem : ℕ → ℕ → ℕ} {dirs : List ℕ} {frame : ℕ}
    (hdir : frame ∉ dirs) (hunnamed : ∀ dir ∈ dirs, ∀ i, tableOf (mem dir i) ≠ some frame) :
    FreshAnswer (fun d => d ∈ dirs) mem (frame * pageSize) := by
  refine .inr ⟨⟨frame, mul_comm ..⟩, ?_⟩
  rw [Nat.mul_div_cancel frame (by decide)]
  rintro ⟨root, path, hroot, hlen, hwalk⟩
  match path with
  | [] => exact hdir (by rwa [← Option.some.inj hwalk])
  | [i] =>
    rw [walk_singleton] at hwalk
    exact hunnamed root hroot i hwalk
  | _ :: _ :: _ => simp at hlen

def oneDirectory : Session ℕ :=
  { machine := (pagingCreateDirectory nextFrame emptySession.machine).1, dirs := [1, 100] }

theorem oneDirectory_step : Step nextFrame emptySession (.created 1) oneDirectory := by
  have hfresh : FreshAnswer emptySession.roots emptySession.machine.mem
      (nextFrame emptySession.machine.pmm).1 :=
    freshAnswer_of_unnamed (by decide) (fun dir _ i => by simp [emptySession])
  have hdir : (pagingCreateDirectory nextFrame emptySession.machine).2 = 1 := by decide
  have hstep := Step.created hfresh
  rw [hdir, if_neg (by decide)] at hstep
  exact hstep

theorem oneDirectory_mem (f i : ℕ) : oneDirectory.machine.mem f i = 0 := by
  have hcontent : directoryContent emptySession.machine = fun _ => 0 := by
    funext j
    simp [directoryContent, emptySession]
  have hmem : oneDirectory.machine.mem =
      assign emptySession.machine.mem 1 (directoryContent emptySession.machine) := rfl
  rw [hmem, hcontent, assign_apply]
  split <;> rfl

def onePage : Session ℕ :=
  { machine := (pagingMap nextFrame oneDirectory.machine 1 0x400000 0x9000 3).1, dirs := [1, 100] }

theorem onePage_step : Step nextFrame oneDirectory (.map 1 0x400000 0x9000 3 true) onePage := by
  have hfresh : FreshAnswer oneDirectory.roots oneDirectory.machine.mem
      (nextFrame oneDirectory.machine.pmm).1 :=
    freshAnswer_of_unnamed (by decide) (fun dir _ i => by simp [oneDirectory_mem])
  have hok : (pagingMap nextFrame oneDirectory.machine 1 0x400000 0x9000 3).2 = true := by decide
  have hstep := Step.map (show 1 ∈ oneDirectory.dirs by decide) (show 0x400000 < 2 ^ 32 by decide)
    (show pageSize ∣ 0x9000 by decide) (show 3 < pageSize by decide) hfresh
  rw [hok] at hstep
  exact hstep

/-- A page of a new directory is found where it was mapped. -/
theorem one_page_lookup : pagingGetPhys onePage.machine 1 0x400123 = 0x9000 := by
  have h := (directory_refines_partial_map emptySession_booted (Run.nil _) oneDirectory_step
    (by decide) (Run.cons onePage_step (Run.nil _)) (by simp [Event.On])).1 0x400123
  exact h (.inl (by decide))

/-- Mapping one page changes the lookup of its neighbour, which is not mapped: it is no longer
`INVALID_PHYSICAL_PAGE` but the frame `0`. -/
theorem neighbour_lookup_is_frame_zero :
    emptySession.Booted ∧ Step nextFrame emptySession (.created 1) oneDirectory ∧
      Step nextFrame oneDirectory (.map 1 0x400000 0x9000 3 true) onePage ∧
      [Event.map 1 0x400000 0x9000 3 true].foldl Event.track emptySession.inherited
        (0x401000 / pageSize) = none ∧
      pagingGetPhys oneDirectory.machine 1 0x401000 = invalidPhysicalPage ∧
      pagingGetPhys onePage.machine 1 0x401000 = 0 := by
  exact ⟨emptySession_booted, oneDirectory_step, onePage_step, by decide, by decide, by decide⟩

end Taavi.Paging
