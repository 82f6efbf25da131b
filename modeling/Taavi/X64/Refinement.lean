import Taavi.Memory.PartialMaps
import Taavi.X64.Boot
import Taavi.X64.Lookups

/-!
# Directories on the x86_64 as partial maps with permissions

Directories stand for partial maps with a lower half each and one upper half together. What
`paging_get_phys` gives and the processor grants is compared with the maps that the successful calls
describe.
-/

namespace Taavi.X64

open Lib List Option
open Paging (Machine pagePresent pageRw pageUser Session)

variable {α : Type*} {alloc : α → ℕ × α} {s t : Session α}

/-- A mapping: the address that its page begins at, its flags, and whether the page is huge. -/
structure Mapping where
  phys : ℕ
  flags : ℕ
  huge : Bool

/-- The physical address of a virtual address of the page. -/
def Mapping.translate (m : Mapping) (virt : ℕ) : ℕ := m.phys + virt % sizeOf m.huge

/-- The mappings of the pages: of the lower half of each directory, and of the upper half. -/
abbrev Maps := Option ℕ → ℕ → Option Mapping

/-- The half of a directory that an address is in: its own lower one, or the upper one of all. -/
def halfOf (dir virt : ℕ) : Option ℕ := if virt < 2 ^ 47 then some dir else none

/-- A call, with what it returns. -/
inductive Event where
  | created (dir : ℕ)
  | map (dir virt phys flags : ℕ) (ok : Bool)
  | mapHuge (dir virt phys flags : ℕ) (ok : Bool)
  | unmap (dir virt : ℕ) (ok : Bool)

namespace Maps

/-- Give the page of an address a mapping, or none. -/
def set (maps : Maps) (dir virt size : ℕ) (mapping : Option Mapping) : Maps := fun half page =>
  if half = halfOf dir virt ∧ page * pageSize / size = virt / size then mapping else maps half page

/-- A new directory has an empty lower half. -/
def clear (maps : Maps) (dir : ℕ) : Maps := fun half page =>
  if half = some dir then none else maps half page

def mappingAt (maps : Maps) (dir virt : ℕ) : Option Mapping := maps (halfOf dir virt) (virt / pageSize)

end Maps

namespace Event

def track (maps : Maps) : Event → Maps
  | created dir => if dir = 0 then maps else maps.clear dir
  | map dir virt phys flags ok =>
    if ok then maps.set dir virt pageSize (some ⟨phys, flags, false⟩) else maps
  | mapHuge dir virt phys flags ok =>
    if ok then maps.set dir virt hugePageSize (some ⟨phys, flags, true⟩) else maps
  | unmap dir virt ok => if ok then maps.set dir virt pageSize none else maps

def Failed : Event → Prop
  | created dir => dir = 0
  | map _ _ _ _ ok => ok = false
  | mapHuge _ _ _ _ ok => ok = false
  | unmap _ _ ok => ok = false

end Event

/-- An address of 64 bits that the processor translates. -/
structure Canonical (virt : ℕ) : Prop where
  lt : virt < 2 ^ 64
  canonical : isCanonical virt = true

structure Arguments (virt phys flags size : ℕ) : Prop where
  canonical : Canonical virt
  virtAligned : size ∣ virt
  physAligned : size ∣ phys
  physRange : 0 < phys ∧ phys < 2 ^ 52
  flagsApart : flags &&& pageFrameMask = 0
  userLower : flags.testBit 2 = true → virt < 2 ^ 47

/-- The answers to come are of frames that are in no use. -/
def Session.Fresh (alloc : α → ℕ × α) (n : ℕ) (s : Session α) : Prop :=
  FreshAnswers alloc n s.machine.pmm (Reached tableOf 3 s.roots s.machine.mem)

/-- One call on one of the directories. -/
inductive Step (alloc : α → ℕ × α) : Session α → Event → Session α → Prop
  | created {s : Session α} (hfresh : Session.Fresh alloc 1 s) :
      Step alloc s (.created (pagingCreateDirectory alloc s.machine).2)
        { machine := (pagingCreateDirectory alloc s.machine).1
          dirs := if (pagingCreateDirectory alloc s.machine).2 = 0 then s.dirs
            else (pagingCreateDirectory alloc s.machine).2 :: s.dirs }
  | map {s : Session α} {dir virt phys flags : ℕ} (hdir : dir ∈ s.dirs)
      (hargs : Arguments virt phys flags pageSize) (hfresh : Session.Fresh alloc 3 s) :
      Step alloc s (.map dir virt phys flags (pagingMap alloc s.machine dir virt phys flags).2)
        { s with machine := (pagingMap alloc s.machine dir virt phys flags).1 }
  | mapHuge {s : Session α} {dir virt phys flags : ℕ} (hdir : dir ∈ s.dirs)
      (hargs : Arguments virt phys flags hugePageSize) (hfresh : Session.Fresh alloc 2 s) :
      Step alloc s
        (.mapHuge dir virt phys flags (pagingMapHuge alloc s.machine dir virt phys flags).2)
        { s with machine := (pagingMapHuge alloc s.machine dir virt phys flags).1 }
  | unmap {s : Session α} {dir virt : ℕ} (hdir : dir ∈ s.dirs) (hvirt : Canonical virt) :
      Step alloc s (.unmap dir virt (pagingUnmap alloc s.machine dir virt).2)
        { s with machine := (pagingUnmap alloc s.machine dir virt).1 }

def Mapping.entry (m : Mapping) : ℕ :=
  if m.huge then m.phys ||| m.flags ||| pagePresent ||| pageHuge
  else m.phys ||| m.flags ||| pagePresent

structure Mapping.Valid (m : Mapping) : Prop where
  aligned : pageSize ∣ m.phys
  lt : m.phys < 2 ^ 52
  flags : m.flags &&& pageFrameMask = 0

structure Refines (s : Session α) (maps : Maps) : Prop where
  tables : Tables s.roots s.machine
  leaves : ∀ dir virt, dir ∈ s.dirs → Canonical virt →
    leafOf s.machine.mem dir virt = (maps.mappingAt dir virt).map fun m => (m.entry, m.huge)
  valid : ∀ half page m, maps half page = some m → m.Valid

section

variable {maps : Maps} {e : Event} {dir virt size : ℕ}

theorem mappingAt_set (hsize : size = pageSize ∨ size = hugePageSize) (hvirt : Canonical virt)
    (mapping : Option Mapping) (dir' virt' : ℕ) :
    (maps.set dir virt size mapping).mappingAt dir' virt' =
      if (dir' = dir ∨ KernelIndex (pml4Index virt)) ∧ virt' / size = virt / size then mapping
      else maps.mappingAt dir' virt' := by
  have hpage : virt' / pageSize * pageSize / size = virt' / size := by
    rcases hsize with rfl | rfl
    · unfold pageSize
      omega
    · unfold pageSize hugePageSize
      omega
  have hhalf : virt' / size = virt / size → (virt' < 2 ^ 47 ↔ virt < 2 ^ 47) := by
    rcases hsize with rfl | rfl
    · unfold pageSize
      omega
    · unfold hugePageSize
      omega
  have hupper := kernelPdIndexStart_le_iff hvirt.lt hvirt.canonical
  unfold Maps.mappingAt Maps.set
  rw [hpage]
  refine if_congr (and_congr_left fun hreg => ?_) rfl rfl
  unfold halfOf KernelIndex
  rw [hupper]
  by_cases hlow : virt < 2 ^ 47
  · rw [if_pos hlow, if_pos ((hhalf hreg).mpr hlow), Option.some.injEq]
    exact ⟨.inl, fun hsame => hsame.resolve_right fun hnot => hnot hlow⟩
  · rw [if_neg hlow, if_neg (mt (hhalf hreg).mp hlow)]
    exact ⟨fun _ => .inr hlow, fun _ => rfl⟩

theorem Mapping.Valid.map_set (hval : ∀ half page m, maps half page = some m → m.Valid)
    {mapping : Option Mapping} (hmapping : ∀ m, mapping = some m → m.Valid) (half : Option ℕ)
    (page : ℕ) (m : Mapping) (hm : maps.set dir virt size mapping half page = some m) : m.Valid := by
  unfold Maps.set at hm
  split at hm
  · exact hmapping m hm
  · exact hval half page m hm

theorem Refines.call (h : Refines s maps) (hvirt : Canonical virt)
    (hsize : size = pageSize ∨ size = hugePageSize) {mapping : Option Mapping}
    (hmapping : ∀ m, mapping = some m → m.Valid) {result : Machine α × Bool}
    (hdoes : Does s.roots s.machine dir virt size (mapping.map fun m => (m.entry, m.huge)) result) :
    Refines { s with machine := result.1 }
      (if result.2 then maps.set dir virt size mapping else maps) := by
  rcases hdoes with ⟨t, rfl, hkept⟩ | ⟨t, rfl, hreplaced⟩
  · refine ⟨hkept.tables, ?_, h.valid⟩
    intro dir' virt' hdir' hvirt'
    rw [hkept.leaves.leafOf_eq hdir']
    exact h.leaves dir' virt' hdir' hvirt'
  · refine ⟨hreplaced.tables, ?_, Mapping.Valid.map_set h.valid hmapping⟩
    intro dir' virt' hdir' hvirt'
    rw [hreplaced.leaves dir' virt' hdir' hvirt'.lt hvirt'.canonical, if_pos rfl,
      mappingAt_set hsize hvirt mapping]
    split
    · rfl
    · exact h.leaves dir' virt' hdir' hvirt'

theorem Refines.newDirectory (h : Refines s maps) {frame : ℕ}
    (hfresh : ¬Reached tableOf 3 s.roots s.machine.mem frame) (pmm : α) :
    Refines
      { machine :=
          { s.machine with mem := assign s.machine.mem frame (directoryContent s.machine), pmm }
        dirs := frame :: s.dirs } (maps.clear frame) := by
  have hroots : Session.roots (α := α) ⟨{ s.machine with
      mem := assign s.machine.mem frame (directoryContent s.machine), pmm }, frame :: s.dirs⟩ =
      fun d => d = frame ∨ s.roots d := by
    funext d
    simp [Session.roots]
  refine ⟨hroots ▸ h.tables.newDirectory hfresh pmm, ?_, ?_⟩
  · intro dir' virt' hdir' hvirt'
    have hupper := kernelPdIndexStart_le_iff hvirt'.lt hvirt'.canonical
    by_cases hnew : dir' = frame
    · obtain rfl := hnew
      by_cases hlow : virt' < 2 ^ 47
      · have hzero : tableOf (directoryContent s.machine (pml4Index virt')) = none := by
          rw [directoryContent, if_neg (fun hi => hupper.mp hi hlow), tableOf_zero]
        have hleaf : (maps.clear dir').mappingAt dir' virt' = none := by
          simp only [Maps.mappingAt, Maps.clear, halfOf, if_pos hlow, if_true]
        rw [hleaf]
        unfold leafOf
        dsimp only
        rw [lookup_newRoot_private hzero, lookup_newRoot_private hzero]
        rfl
      · have hshare : directoryContent s.machine (pml4Index virt') =
            s.machine.mem s.machine.kernelPageDir (pml4Index virt') :=
          if_pos (hupper.mpr hlow)
        have hker := h.leaves s.machine.kernelPageDir virt' h.tables.kernel hvirt'
        unfold leafOf at hker ⊢
        dsimp only
        rw [lookup_newRoot_shared h.tables.kernel hfresh hshare (by simp),
          lookup_newRoot_shared h.tables.kernel hfresh hshare (by simp), hker]
        simp only [Maps.mappingAt, Maps.clear, halfOf, if_neg hlow, reduceCtorEq, if_false]
    · have hold : dir' ∈ s.dirs := (mem_cons.mp hdir').resolve_left hnew
      have hagree : ∀ g, g ≠ frame →
          assign s.machine.mem frame (directoryContent s.machine) g = s.machine.mem g :=
        fun g hg => assign_of_ne _ _ hg
      have hmapping : (maps.clear frame).mappingAt dir' virt' = maps.mappingAt dir' virt' := by
        unfold Maps.mappingAt Maps.clear halfOf
        split <;> simp [hnew]
      rw [hmapping, ← h.leaves dir' virt' hold hvirt']
      unfold leafOf
      dsimp only
      rw [lookup_of_agree hfresh hagree hold (by simp), lookup_of_agree hfresh hagree hold (by simp)]
  · intro half page m hm
    unfold Maps.clear at hm
    split at hm
    · cases hm
    · exact h.valid half page m hm

theorem pagingCreateDirectory_cases (hfresh : Session.Fresh alloc 1 s) :
    (∃ pmm, pagingCreateDirectory alloc s.machine = ({ s.machine with pmm }, 0)) ∨
      ∃ frame pmm, frame ≠ 0 ∧ ¬Reached tableOf 3 s.roots s.machine.mem frame ∧
        pagingCreateDirectory alloc s.machine = ({ s.machine with
              mem := assign s.machine.mem frame (directoryContent s.machine), pmm }, frame) := by
  unfold pagingCreateDirectory
  dsimp only
  split
  · exact .inl ⟨_, rfl⟩
  · rename_i hne
    obtain ⟨⟨⟨q, hq⟩, -, hunused⟩, -⟩ := hfresh.resolve_left hne
    refine .inr ⟨_, _, ?_, hunused, rfl⟩
    rw [hq, Nat.mul_div_cancel_left q (by decide)]
    rintro rfl
    exact hne hq

theorem hugePageSize_dvd {n : ℕ} (h : hugePageSize ∣ n) : pageSize ∣ n := dvd_trans (by decide) h

theorem Step.refines (hstep : Step alloc s e t) (h : Refines s maps) :
    Refines t (Event.track maps e) := by
  cases hstep with
  | created hfresh =>
    have hcases := pagingCreateDirectory_cases hfresh
    unfold Event.track
    generalize pagingCreateDirectory alloc s.machine = result at hcases
    rcases hcases with ⟨pmm, rfl⟩ | ⟨frame, pmm, hne, hunused, rfl⟩
    · exact ⟨h.tables.with_pmm _, h.leaves, h.valid⟩
    · dsimp only
      rw [if_neg hne, if_neg hne]
      exact h.newDirectory hunused pmm
  | @map dir virt phys flags hdir hargs hfresh =>
    have hval : ∀ m, some (⟨phys, flags, false⟩ : Mapping) = some m → m.Valid := by
      rintro m ⟨⟩
      exact ⟨hargs.physAligned, hargs.physRange.2, hargs.flagsApart⟩
    exact h.call hargs.canonical (.inl rfl) hval
      (h.tables.pagingMap hdir hargs.canonical.lt hargs.userLower hfresh phys)
  | @mapHuge dir virt phys flags hdir hargs hfresh =>
    have hval : ∀ m, some (⟨phys, flags, true⟩ : Mapping) = some m → m.Valid := by
      rintro m ⟨⟩
      exact ⟨hugePageSize_dvd hargs.physAligned, hargs.physRange.2, hargs.flagsApart⟩
    exact h.call hargs.canonical (.inr rfl) hval
      (h.tables.pagingMapHuge hdir hargs.canonical.lt hargs.userLower hfresh phys)
  | @unmap dir virt hdir hvirt =>
    have hval : ∀ m, (none : Option Mapping) = some m → m.Valid := by
      rintro m ⟨⟩
    exact h.call hvirt (.inl rfl) hval (h.tables.pagingUnmap hdir hvirt.lt hvirt.canonical alloc)

theorem refines_of_run {es : List Event} (hrun : Run (Step alloc) s es t) (h : Refines s maps) :
    Refines t (es.foldl Event.track maps) := by
  induction hrun generalizing maps with
  | nil => exact h
  | cons hstep _ ih => exact ih (hstep.refines h)

end

section

variable {maps : Maps} {dir virt : ℕ}

theorem Mapping.Valid.entry_and {m : Mapping} (h : m.Valid) :
    m.entry &&& pageFrameMask = m.phys := by
  have hpres : pagePresent &&& pageFrameMask = 0 := by decide
  have hhuge : pageHuge &&& pageFrameMask = 0 := by decide
  unfold Mapping.entry
  split
  · rw [Nat.and_or_distrib_right, hhuge, Nat.or_zero, Nat.and_or_distrib_right, hpres,
      Nat.or_zero, or_and_pageFrameMask h.aligned h.lt h.flags]
  · rw [Nat.and_or_distrib_right, hpres, Nat.or_zero,
      or_and_pageFrameMask h.aligned h.lt h.flags]

theorem Mapping.Valid.testBit_entry {m : Mapping} (h : m.Valid) {bit : ℕ}
    (hbit : bit = 1 ∨ bit = 2) : m.entry.testBit bit = m.flags.testBit bit := by
  have hlow : bit < 12 := by omega
  have hpres : pagePresent.testBit bit = false := by rcases hbit with rfl | rfl <;> decide
  have hboth : (pagePresent ||| pageHuge).testBit bit = false := by
    rcases hbit with rfl | rfl <;> decide
  unfold Mapping.entry
  split
  · rw [Nat.or_assoc, testBit_pageEntry h.aligned hlow, hboth, Bool.or_false]
  · rw [testBit_pageEntry h.aligned hlow, hpres, Bool.or_false]

theorem Refines.reads (h : Refines s maps) (hdir : dir ∈ s.dirs) (hvirt : Canonical virt) :
    pagingGetPhys s.machine dir virt =
        ((maps.mappingAt dir virt).map fun m => m.translate virt).getD 0 ∧
      userAccess s.machine dir virt = (maps.mappingAt dir virt).any (fun m => m.flags.testBit 2) ∧
      writeAccess s.machine dir virt = (maps.mappingAt dir virt).any (fun m => m.flags.testBit 1) := by
  have hends := h.tables.walkEnds hdir virt
  rw [h.leaves dir virt hdir hvirt] at hends
  rw [hends.pagingGetPhys_eq, hends.userAccess_eq, hends.writeAccess_eq]
  cases hm : maps.mappingAt dir virt with
  | none => exact ⟨rfl, rfl, rfl⟩
  | some m =>
    have hval := h.valid _ _ m hm
    simp only [map_some, getD_some, any_some, Mapping.translate,
      hval.entry_and, hval.testBit_entry (.inl rfl), hval.testBit_entry (.inr rfl),
      and_self]

theorem Event.track_of_failed {e : Event} (hfailed : e.Failed) : e.track maps = maps := by
  cases e with
  | created dir => exact if_pos hfailed
  | map dir virt phys flags ok | mapHuge dir virt phys flags ok =>
    obtain rfl : ok = false := hfailed
    rfl
  | unmap dir virt ok =>
    obtain rfl : ok = false := hfailed
    rfl

theorem Step.dirs_of_failed {e : Event} (hstep : Step alloc s e t) (hfailed : e.Failed) :
    t.dirs = s.dirs := by
  cases hstep with
  | created hfresh => exact if_pos hfailed
  | map | mapHuge | unmap => rfl

end

/-- The session after the kernel half was filled, with no page mapped. -/
def booted (start : Machine α) : Session α := ⟨start, [start.kernelPageDir]⟩

theorem refines_booted {boot start : Machine α}
    (hfresh : FreshAnswers alloc (entriesPerTable - kernelPdIndexStart) boot.pmm
      (fun frame => frame = boot.kernelPageDir))
    (hdone : initKernelHalf alloc boot = (start, true)) :
    Refines (booted start) (fun _ _ => none) := by
  obtain ⟨hfilling, -⟩ := filling_of_initKernelHalf hfresh hdone
  have hroots : (booted start).roots = KernelOnly start := by
    funext d
    simp [Session.roots, booted, KernelOnly]
  refine ⟨hroots ▸ hfilling.tables, ?_, ?_⟩
  · intro dir virt hdir _
    obtain rfl := mem_singleton.mp hdir
    exact hfilling.leafOf_eq virt
  · intro half page m hm
    cases hm

/-- **Directories are partial maps with permissions.** After any calls, `paging_get_phys` gives the
address of the last mapping that was not unmapped since, or `0`, and the processor grants what that
mapping does. A call that fails changes none of this. -/
theorem directories_refine_maps {boot start : Machine α} {final : Session α} {es : List Event}
    (hfresh : FreshAnswers alloc (entriesPerTable - kernelPdIndexStart) boot.pmm
      (fun frame => frame = boot.kernelPageDir))
    (hdone : initKernelHalf alloc boot = (start, true))
    (hrun : Run (Step alloc) (booted start) es final) :
    (∀ dir virt, dir ∈ final.dirs → Canonical virt →
      let mapping := (es.foldl Event.track (fun _ _ => none)).mappingAt dir virt
      pagingGetPhys final.machine dir virt = (mapping.map fun m => m.translate virt).getD 0 ∧
      userAccess final.machine dir virt = mapping.any (fun m => m.flags.testBit 2) ∧
      writeAccess final.machine dir virt = mapping.any (fun m => m.flags.testBit 1)) ∧
    ∀ e next, Step alloc final e next → e.Failed →
      ∀ dir virt, dir ∈ next.dirs → Canonical virt →
        pagingGetPhys next.machine dir virt = pagingGetPhys final.machine dir virt ∧
        userAccess next.machine dir virt = userAccess final.machine dir virt ∧
        writeAccess next.machine dir virt = writeAccess final.machine dir virt := by
  have hfinal := refines_of_run hrun (refines_booted hfresh hdone)
  refine ⟨fun dir virt hdir hvirt => hfinal.reads hdir hvirt, ?_⟩
  intro e next hstep hfailed dir virt hdir hvirt
  have hnext := hstep.refines hfinal
  rw [Event.track_of_failed hfailed] at hnext
  obtain ⟨hphys, huser, hwrite⟩ := hnext.reads hdir hvirt
  rw [hstep.dirs_of_failed hfailed] at hdir
  obtain ⟨hphys', huser', hwrite'⟩ := hfinal.reads hdir hvirt
  exact ⟨hphys.trans hphys'.symm, huser.trans huser'.symm, hwrite.trans hwrite'.symm⟩

/-- A machine before `paging_init`. -/
def exampleBoot : Machine ℕ := { mem := fun _ _ => 0, kernelPageDir := 1000, pmm := 1 }

@[irreducible] def exampleStart : Machine ℕ := (initKernelHalf Paging.nextFrame exampleBoot).1

@[irreducible] def exampleMapped : Machine ℕ :=
  (pagingMap Paging.nextFrame exampleStart 1000 0x400000 0x9000 7).1

theorem freshAnswers_nextFrame {n first : ℕ} {used : ℕ → Prop} (hfst : 0 < first)
    (hlast : (first + n) * pageSize ≤ 2 ^ 52) (hused : ∀ f, used f → f < first ∨ first + n ≤ f) :
    FreshAnswers Paging.nextFrame n first used := by
  induction n generalizing first used with
  | zero => trivial
  | succ n ih =>
    have hframe : first * pageSize / pageSize = first := Nat.mul_div_cancel first (by decide)
    right
    simp only [Paging.nextFrame, hframe]
    refine ⟨⟨⟨first, mul_comm ..⟩, ?_, fun hf => ?_⟩, ih (by omega) ?_ ?_⟩
    · exact lt_of_lt_of_le (Nat.mul_lt_mul_of_pos_right (by omega) (by decide)) hlast
    · have := hused first hf
      omega
    · rwa [add_right_comm, add_assoc]
    · rintro f (rfl | hf)
      · exact .inl (by omega)
      · have := hused f hf
        omega

def NamesGiven (s : Machine ℕ) : Prop :=
  ∀ f i next, tableOf (s.mem f i) = some next → next < s.pmm

theorem NamesGiven.fillKernelHalf {left i : ℕ} {s : Machine ℕ} (h : NamesGiven s)
    (hlast : (s.pmm + left) * pageSize ≤ 2 ^ 52) :
    NamesGiven (fillKernelHalf Paging.nextFrame left i s).1 := by
  induction left generalizing s i with
  | zero => exact h
  | succ left ih =>
    simp only [X64.fillKernelHalf]
    split
    · exact fun f j next hnext => Nat.lt_succ_of_lt (h f j next hnext)
    · have hframe : s.pmm * pageSize / pageSize = s.pmm := Nat.mul_div_cancel _ (by decide)
      have hlt : s.pmm * pageSize < 2 ^ 52 :=
        lt_of_lt_of_le (Nat.mul_lt_mul_of_pos_right (by omega) (by decide)) hlast
      have hentry : tableOf ((Paging.nextFrame s.pmm).1 ||| pagePresent ||| pageRw) =
          some s.pmm := by
        have hnew := (newEntry_bits ⟨s.pmm, mul_comm ..⟩ hlt (.inr rfl)).1
        rw [hframe] at hnew
        rw [← hnew]
        exact congrArg tableOf (Nat.or_assoc ..)
      have hsum : s.pmm + (left + 1) = s.pmm + 1 + left := by omega
      refine ih ?_ (hsum ▸ hlast)
      intro f j next hnext
      dsimp only at hnext ⊢
      rw [install_apply] at hnext
      split at hnext
      · rw [hentry] at hnext
        exact (Option.some.inj hnext) ▸ Nat.lt_succ_self _
      · split at hnext
        · simp at hnext
        · exact Nat.lt_succ_of_lt (h f j next hnext)

theorem NamesGiven.reached {s : Machine ℕ} (h : NamesGiven s) {roots : ℕ → Prop} {depth g : ℕ}
    (hreach : Reached tableOf depth roots s.mem g) : roots g ∨ g < s.pmm := by
  obtain ⟨root, path, hroot, -, hwalk⟩ := hreach
  rcases eq_nil_or_concat path with rfl | ⟨init, i, rfl⟩
  · exact .inl (Option.some.inj hwalk ▸ hroot)
  · rw [concat_eq_append, walk_concat] at hwalk
    obtain ⟨table, -, hnext⟩ := bind_eq_some_iff.mp hwalk
    exact .inr (h table i g hnext)

theorem exampleBoot_fresh : FreshAnswers Paging.nextFrame (entriesPerTable - kernelPdIndexStart)
    exampleBoot.pmm (fun frame => frame = exampleBoot.kernelPageDir) :=
  freshAnswers_nextFrame (by decide) (by decide) (fun f hf => .inr (hf ▸ by decide))

theorem exampleStart_done : initKernelHalf Paging.nextFrame exampleBoot = (exampleStart, true) := by
  have hok : (initKernelHalf Paging.nextFrame exampleBoot).2 = true := by decide +kernel
  have hpair : ∀ r : Machine ℕ × Bool, r.2 = true → r = (r.1, true) := by
    rintro ⟨m, b⟩ rfl
    rfl
  unfold exampleStart
  exact hpair (initKernelHalf Paging.nextFrame exampleBoot) hok

theorem exampleStart_fresh : Session.Fresh Paging.nextFrame 3 (booted exampleStart) := by
  have hnames : NamesGiven exampleStart := by
    unfold exampleStart
    refine NamesGiven.fillKernelHalf (fun f i next hnext => ?_) (by decide)
    have hzero : assign exampleBoot.mem exampleBoot.kernelPageDir (fun _ => 0) f i = 0 := by
      rw [assign_apply]
      split <;> rfl
    dsimp only at hnext
    rw [hzero, tableOf_zero] at hnext
    cases hnext
  have hpmm : exampleStart.pmm = 257 := by decide +kernel
  have hker : exampleStart.kernelPageDir = 1000 := by decide +kernel
  show FreshAnswers Paging.nextFrame 3 exampleStart.pmm _
  rw [hpmm]
  refine freshAnswers_nextFrame (by omega) (by decide) ?_
  intro f hf
  rcases hnames.reached hf with hroot | hlt
  · rw [mem_singleton.mp hroot, hker]
    omega
  · rw [hpmm] at hlt
    exact .inl hlt

theorem exampleMapped_step : Step Paging.nextFrame (booted exampleStart)
    (.map 1000 0x400000 0x9000 7 true) ⟨exampleMapped, [1000]⟩ := by
  have hker : exampleStart.kernelPageDir = 1000 := by decide +kernel
  have hok : (pagingMap Paging.nextFrame exampleStart 1000 0x400000 0x9000 7).2 = true := by
    decide +kernel
  have hdirs : (booted exampleStart).dirs = [1000] := by rw [booted, hker]
  have hargs : Arguments 0x400000 0x9000 7 pageSize :=
    ⟨⟨by decide, by decide⟩, by decide, by decide, by decide, by decide, by decide⟩
  have hstep := Step.map (show 1000 ∈ (booted exampleStart).dirs by simp [hdirs]) hargs
    exampleStart_fresh
  rw [hdirs, show (booted exampleStart).machine = exampleStart from rfl, hok] at hstep
  unfold exampleMapped
  exact hstep

/-- A page of the user is found where it was mapped, and may be written. -/
theorem one_user_page_lookup :
    pagingGetPhys exampleMapped 1000 0x400123 = 0x9123 ∧
      userAccess exampleMapped 1000 0x400123 = true ∧
      writeAccess exampleMapped 1000 0x400123 = true :=
  (directories_refine_maps exampleBoot_fresh exampleStart_done
    (Run.cons exampleMapped_step (Run.nil _))).1 1000 0x400123 (by decide) ⟨by decide, by decide⟩

end Taavi.X64
