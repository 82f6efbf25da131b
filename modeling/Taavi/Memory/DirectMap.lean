import Taavi.Memory.Accounting
import Taavi.Memory.Room

/-!
# The direct map

The kernel reaches the frame `f` at `phys_to_virt(f)`. `paging_init` maps all memory there, and the
heap and the framebuffer have windows of their own. The machine is followed from the boot on.
-/

namespace Taavi.Paging

open Lib Pmm

def fbVirtualBase : ℕ := 0xE0000000

def physToVirt (addr : ℕ) : ℕ := (addr + kernelVirtualBase) % 2 ^ 32

/-- What the boot loader reports: the memory, the framebuffer and the modules. -/
structure BootInfo extends MultibootInfo where
  flags : ℕ
  framebufferAddr : ℕ
  framebufferPitch : ℕ
  framebufferHeight : ℕ
  mods : List Module

/-- What the linker fixes, with the frame of `kernel_page_dir`. -/
structure PagingImage extends KernelImage where
  kernelPageDir : ℕ
  dir_ge : kernelPhysicalAddress / pageSize ≤ kernelPageDir
  dir_lt : kernelPageDir < kernelEnd / pageSize

def BootInfo.fbPageCount (info : BootInfo) : ℕ :=
  (info.framebufferPitch * info.framebufferHeight % 2 ^ 32 + pageSize - 1) % 2 ^ 32 / pageSize

def fbInitMboot (info : BootInfo) : List DeferredMapping :=
  if info.flags.testBit 12 then
    if info.fbPageCount = 0 then []
    else [{ virt := fbVirtualBase, phys := info.framebufferAddr % 2 ^ 32
            flags := pagePresent ||| pageRw, pageCount := info.fbPageCount }]
  else []

/-- The machine, the end of the heap, and the frames that other components have. -/
structure System where
  machine : Machine Pmm.State
  heapCeiling : ℕ
  owned : Finset ℕ

/-- The memory manager when `paging_init` starts. -/
def bootPmm (img : PagingImage) (info : BootInfo) : Pmm.State :=
  checkForModules (pmmInit img.toKernelImage info.toMultibootInfo) info.mods

def bootMachine (img : PagingImage) (info : BootInfo) (mem : ℕ → ℕ → ℕ) : Machine Pmm.State :=
  pagingInit pmmAlloc { mem, kernelPageDir := img.kernelPageDir, pmm := bootPmm img info }
    info.totalBytes (fbInitMboot info)

/-- The boot up to `kmalloc_init`, with any content of the memory. -/
def boot (img : PagingImage) (info : BootInfo) (mem : ℕ → ℕ → ℕ) : System :=
  let size := additionHeapPageSize * pageSize
  let r := vmmAlloc pmmAlloc pmmFree (bootMachine img info mem) img.kernelPageDir
    (Arch.heapStart .i386) size (pagePresent ||| pageRw)
  { machine := r.1, heapCeiling := if r.2 then Arch.heapStart .i386 + size else 0, owned := ∅ }

inductive BootEvent where
  | grow
  | alloc
  | free (frame : ℕ)
  | write (frame i word : ℕ)

def additionSize : ℕ := additionHeapPageSize * pageSize * 2

namespace System

def step (s : System) : BootEvent → Option System
  | .grow =>
    if Arch.heapCeil .i386 < additionSize + s.heapCeiling then some s
    else
      let r := vmmAlloc pmmAlloc pmmFree s.machine s.machine.kernelPageDir s.heapCeiling
        additionSize (pagePresent ||| pageRw)
      some { s with machine := r.1
                    heapCeiling := if r.2 then s.heapCeiling + additionSize else s.heapCeiling }
  | .alloc =>
    let r := pmmAlloc s.machine.pmm
    some { s with machine := { s.machine with pmm := r.2 }
                  owned := if r.1 = 0 then s.owned else insert (r.1 / pageSize) s.owned }
  | .free frame =>
    if frame ∈ s.owned then
      some { s with
        machine := { s.machine with pmm := (pmmFree s.machine.pmm (frame * pageSize)).1 }
        owned := s.owned.erase frame }
    else none
  | .write frame i word =>
    if frame ∈ s.owned then
      some { s with machine := { s.machine with mem := storeWord s.machine.mem frame i word } }
    else none

def Step (s : System) (e : BootEvent) (t : System) : Prop := s.step e = some t

/-- The condition on an event: frames that exist are free for what it allocates. -/
def Enough (totalPages : ℕ) (s : System) : BootEvent → Prop
  | .grow => 768 ≤ freeAhead totalPages s.machine.pmm
  | .alloc => 0 < freeAhead totalPages s.machine.pmm
  | _ => True

/-- The memory ends before the heap window, the framebuffer window with the address space, and there
are frames for the tables and the heap. -/
structure Small (img : PagingImage) (info : BootInfo) : Prop where
  fits : info.Fits
  memory : info.totalBytes ≤ Arch.heapStart .i386 - kernelVirtualBase
  framebuffer : fbVirtualBase + info.fbPageCount * pageSize ≤ 2 ^ 32
  room : 512 ≤ freeAhead info.totalPages (bootPmm img info)

end System

/-- Every page that exists is mapped at its place, above the first megabyte. -/
def Direct (totalPages : ℕ) (s : Machine Pmm.State) : Prop :=
  ∀ page, reservedLowPages ≤ page → page < totalPages →
    pageEntry s s.kernelPageDir (kernelVirtualBase + page * pageSize) =
      some (page * pageSize ||| (pagePresent ||| pageRw) ||| pagePresent)

section

variable {img : PagingImage} {info : BootInfo} {mem : ℕ → ℕ → ℕ} {totalPages bound n : ℕ}

variable {s t : Machine Pmm.State}

theorem page_of_physToVirt (page : ℕ) :
    (kernelVirtualBase + page * pageSize) / pageSize = kernelVirtualBase / pageSize + page :=
  Nat.add_mul_div_right _ _ (by decide)

theorem PagesMapped.direct {first count : ℕ} {good : ℕ → ℕ → Prop}
    (h : PagesMapped s first count good t) (hdirect : Direct totalPages s)
    (hapart : first + count ≤ kernelVirtualBase / pageSize + reservedLowPages ∨
      kernelVirtualBase / pageSize + totalPages ≤ first) : Direct totalPages t := by
  intro page hge hlt
  rw [h.kernelPageDir, h.outside _ (by rw [page_of_physToVirt]; omega)]
  exact hdirect page hge hlt

theorem pmmTestBit_bootPmm {page : ℕ} (hpage : page < reservedLowPages ∨
    kernelPhysicalAddress / pageSize ≤ page ∧ page < img.kernelEnd / pageSize) :
    pmmTestBit (bootPmm img info) page = true := by
  unfold bootPmm
  rw [pmmTestBit_checkForModules, Bool.or_eq_true]
  right
  have hbit : pmmTestBit (pmmInit img.toKernelImage info.toMultibootInfo) page = _ :=
    testBit_initBitmap
  rw [hbit]
  simp only [Bool.or_eq_true, decide_eq_true_eq]
  rcases hpage with hlow | hker
  · exact .inr (.inr (.inl ⟨Nat.zero_le _, hlow⟩))
  · exact .inr (.inl hker)

theorem absentTables_le {α : Type*} (s : Machine α) : absentTables s ≤ 256 := by
  unfold absentTables
  calc _ ≤ (Finset.Ico kernelPdIndexStart entriesPerTable).card := by
        apply Finset.card_le_card
        intro i hi
        simp only [Finset.mem_filter, Finset.mem_range] at hi
        exact Finset.mem_Ico.mpr ⟨hi.2.1, hi.1⟩
    _ = 256 := by rw [Nat.card_Ico]; rfl

def clearedMachine (img : PagingImage) (info : BootInfo) (mem : ℕ → ℕ → ℕ) : Machine Pmm.State :=
  { mem := assign mem img.kernelPageDir fun _ => 0
    kernelPageDir := img.kernelPageDir
    pmm := bootPmm img info }

theorem managed_clearedMachine (mem : ℕ → ℕ → ℕ) (hbound : bound ≤ maxPages)
    (hroom : 256 + n ≤ freeAhead bound (bootPmm img info)) :
    Managed (fun _ => False) bound n (clearedMachine img info mem) := by
  have hempty : ∀ root i, kernelRoot (clearedMachine img info mem) root →
      tableOf ((clearedMachine img info mem).mem root i) = none := by
    rintro root i rfl
    simp [clearedMachine]
  have hdir := img.dir_ge
  refine ⟨⟨⟨TableTree.of_empty hempty, rfl, ?_⟩, ?_, fun _ => False.elim, fun _ => False.elim, ?_⟩,
    hbound, ?_⟩
  · rintro dir rfl
    show img.kernelPageDir ≠ 0
    unfold kernelPhysicalAddress pageSize at hdir
    omega
  · intro frame hreach
    have hframe : frame = img.kernelPageDir := roots_of_empty hempty hreach
    rw [hframe]
    exact pmmTestBit_bootPmm (.inr ⟨img.dir_ge, img.dir_lt⟩)
  · intro page hpage
    exact pmmTestBit_bootPmm (.inl hpage)
  · have habs := absentTables_le (clearedMachine img info mem)
    show _ ≤ freeAhead bound (bootPmm img info)
    omega

theorem pages_eq (hfits : info.Fits) :
    (info.totalBytes + 2 ^ 32 - kernelPhysicalAddress) % 2 ^ 32 / pageSize =
      info.totalPages - reservedLowPages ∧ reservedLowPages ≤ info.totalPages := by
  have hbounds := hfits.totalPages_bounds
  refine ⟨?_, hbounds.1⟩
  have hbytes := hfits.totalBytes_eq
  unfold MultibootInfo.totalPages
  unfold MultibootInfo.Fits at hfits
  unfold conventionalMemoryKb at *
  unfold kernelPhysicalAddress pageSize reservedLowPages
  omega

theorem direct_of_pagesMapped (htotal : totalPages ≤ maxPages)
    (h : PagesMapped s ((kernelVirtualBase + kernelPhysicalAddress) / pageSize)
      (totalPages - reservedLowPages) (fun page entry => entry =
        ((kernelPhysicalAddress + (page - (kernelVirtualBase + kernelPhysicalAddress) / pageSize) *
          pageSize) % 2 ^ 32 ||| (pagePresent ||| pageRw) ||| pagePresent)) t) :
    Direct totalPages t := by
  have hfst : (kernelVirtualBase + kernelPhysicalAddress) / pageSize =
      kernelVirtualBase / pageSize + reservedLowPages := by decide
  intro page hge hlt
  have hpage := page_of_physToVirt page
  obtain ⟨entry, hentry, heq⟩ := h.inside (kernelVirtualBase + page * pageSize)
    (by rw [hpage, hfst]; omega) (by rw [hpage, hfst]; omega)
  rw [h.kernelPageDir, hentry, heq, hpage, hfst]
  have hphys : (kernelPhysicalAddress + (kernelVirtualBase / pageSize + page -
      (kernelVirtualBase / pageSize + reservedLowPages)) * pageSize) % 2 ^ 32 = page * pageSize := by
    unfold kernelPhysicalAddress kernelVirtualBase pageSize
    unfold maxPages at htotal
    unfold reservedLowPages at hge ⊢
    omega
  rw [hphys]

theorem PagesMapped.single {roots : ℕ → Prop} {virt phys flags : ℕ}
    (h : Mapped roots s s.kernelPageDir virt (phys ||| flags ||| pagePresent) t) :
    PagesMapped s (virt / pageSize) 1 (fun _ _ => True) t :=
  PagesMapped.cons h rfl (presentEntry_pageWord _ _) trivial (PagesMapped.none t _ _)

def directMachine (img : PagingImage) (info : BootInfo) (mem : ℕ → ℕ → ℕ) : Machine Pmm.State :=
  mapPages pmmAlloc (clearedMachine img info mem) img.kernelPageDir
    (kernelVirtualBase + kernelPhysicalAddress) kernelPhysicalAddress (pagePresent ||| pageRw)
    (info.totalPages - reservedLowPages)

def screenMachine (img : PagingImage) (info : BootInfo) (mem : ℕ → ℕ → ℕ) : Machine Pmm.State :=
  (pagingMap pmmAlloc (directMachine img info mem) (directMachine img info mem).kernelPageDir
    vgaMemoryAddress vgaPhysicalAddress (pagePresent ||| pageRw)).1

theorem bootMachine_eq (hfits : info.Fits) : bootMachine img info mem =
    (fbInitMboot info).foldl (fun s m =>
      mapPages pmmAlloc s s.kernelPageDir m.virt m.phys m.flags m.pageCount)
      (screenMachine img info mem) := by
  unfold bootMachine pagingInit
  simp only [(pages_eq hfits).1]
  rfl

theorem managed_bootMachine (mem : ℕ → ℕ → ℕ) (bound n : ℕ) (hfits : info.Fits)
    (hmemory : info.totalBytes ≤ 2 ^ 30)
    (hfb : fbVirtualBase + info.fbPageCount * pageSize ≤ 2 ^ 32) (hbound : bound ≤ maxPages)
    (hroom : 256 + n ≤ freeAhead bound (bootPmm img info)) :
    Managed (fun _ => False) bound n (bootMachine img info mem) ∧
      (bootMachine img info mem).kernelPageDir = img.kernelPageDir ∧
      (info.totalBytes ≤ fbVirtualBase - kernelVirtualBase →
        Direct info.totalPages (bootMachine img info mem)) := by
  obtain ⟨hpages, hlow⟩ := pages_eq hfits
  have htotal : info.totalPages ≤ 2 ^ 18 := by
    unfold MultibootInfo.totalPages pageSize
    omega
  have hcleared := managed_clearedMachine mem hbound hroom
  -- all memory
  have hend : kernelVirtualBase + kernelPhysicalAddress +
      (info.totalPages - reservedLowPages) * pageSize ≤ 2 ^ 32 := by
    unfold kernelVirtualBase kernelPhysicalAddress pageSize
    unfold reservedLowPages at *
    omega
  obtain ⟨h₁, hmap₁⟩ : Managed (fun _ => False) bound n (directMachine img info mem) ∧ _ :=
    hcleared.mapPages kernelPhysicalAddress (pagePresent ||| pageRw) rfl
      (show kernelVirtualBase ≤ kernelVirtualBase + kernelPhysicalAddress by omega) hend
  have hdir₁ : (directMachine img info mem).kernelPageDir = img.kernelPageDir :=
    hmap₁.kernelPageDir
  have hdirect₁ : Direct info.totalPages (directMachine img info mem) :=
    direct_of_pagesMapped (by unfold maxPages; omega) hmap₁
  -- the text screen
  obtain ⟨-, hvga, h₂⟩ := h₁.map (show vgaMemoryAddress < 2 ^ 32 by decide) (by decide)
    vgaPhysicalAddress (pagePresent ||| pageRw)
  rw [← screenMachine] at hvga h₂
  have hdir₂ : (screenMachine img info mem).kernelPageDir = img.kernelPageDir :=
    hvga.kernelPageDir.trans hdir₁
  have hdirect₂ : Direct info.totalPages (screenMachine img info mem) :=
    (PagesMapped.single hvga).direct hdirect₁ (.inl (by decide))
  rw [bootMachine_eq hfits]
  unfold fbInitMboot
  split
  · split
    · rw [List.foldl_nil]
      exact ⟨h₂, hdir₂, fun _ => hdirect₂⟩
    · -- the framebuffer
      obtain ⟨h₃, hmap₃⟩ := h₂.mapPages (info.framebufferAddr % 2 ^ 32)
        (pagePresent ||| pageRw) rfl (show kernelVirtualBase ≤ fbVirtualBase by decide) hfb
      rw [List.foldl_cons, List.foldl_nil]
      refine ⟨h₃, hmap₃.kernelPageDir.trans hdir₂, fun hmem => ?_⟩
      apply hmap₃.direct hdirect₂
      right
      unfold MultibootInfo.totalPages
      unfold fbVirtualBase kernelVirtualBase pageSize at *
      omega
  · rw [List.foldl_nil]
    exact ⟨h₂, hdir₂, fun _ => hdirect₂⟩

end

namespace System

variable {img : PagingImage} {info : BootInfo} {s t : System} {e : BootEvent} {totalPages : ℕ}

variable {mem : ℕ → ℕ → ℕ} {megabytes n page : ℕ}

/-- What holds after the boot and stays so. -/
structure Holds (totalPages : ℕ) (s : System) : Prop where
  secure : Secure (fun frame => frame ∈ s.owned) s.machine
  owned_ge : ∀ frame ∈ s.owned, reservedLowPages ≤ frame
  ceiling : Arch.heapStart .i386 ≤ s.heapCeiling
  direct : Direct totalPages s.machine

def EndsBeforeHeap (totalPages : ℕ) : Prop :=
  kernelVirtualBase / pageSize + totalPages ≤ Arch.heapStart .i386 / pageSize

theorem Holds.grow (h : s.Holds totalPages) (hend : EndsBeforeHeap totalPages)
    (htotal : totalPages ≤ maxPages) (henough : 768 ≤ freeAhead totalPages s.machine.pmm)
    (hstep : s.step .grow = some t) : t.Holds totalPages := by
  simp only [step] at hstep
  split at hstep
  · cases hstep
    exact h
  · rename_i hceiling
    cases hstep
    have hroom := absentTables_le s.machine
    have hmanage : Managed (fun frame => frame ∈ s.owned) totalPages (0 + 512) s.machine :=
      ⟨h.secure, htotal, by omega⟩
    have hstart := h.ceiling
    have hsize : (additionSize + pageSize - 1) % 2 ^ 32 / pageSize = 512 := by decide
    have hlt : s.heapCeiling + 512 * pageSize < 2 ^ 32 := by
      unfold additionSize additionHeapPageSize pageSize Arch.heapCeil at hceiling
      unfold pageSize
      dsimp only at hceiling
      omega
    have hker : kernelVirtualBase ≤ s.heapCeiling :=
      le_trans (by decide : kernelVirtualBase ≤ Arch.heapStart .i386) hstart
    obtain ⟨hok, hleft, hpages⟩ := hmanage.vmmAllocLoop s.heapCeiling (pagePresent ||| pageRw)
      hker hlt
    have heq : vmmAlloc pmmAlloc pmmFree s.machine s.machine.kernelPageDir s.heapCeiling additionSize
        (pagePresent ||| pageRw) = vmmAllocLoop pmmAlloc pmmFree s.machine.kernelPageDir
          s.heapCeiling (pagePresent ||| pageRw) 512 s.machine s.heapCeiling := by
      unfold vmmAlloc
      rw [if_neg (h.secure.tables.nonzero _ h.secure.tables.kernel), hsize]
    rw [heq, if_pos hok]
    refine ⟨hleft.toSecure, h.owned_ge, le_trans hstart (Nat.le_add_right _ _), ?_⟩
    apply hpages.direct h.direct
    right
    exact le_trans hend (Nat.div_le_div_right hstart)

theorem Holds.alloc (h : s.Holds totalPages) (htotal : totalPages ≤ maxPages)
    (henough : 0 < freeAhead totalPages s.machine.pmm) (hstep : s.step .alloc = some t) :
    t.Holds totalPages := by
  obtain ⟨page, htaken⟩ := Managed.exists_taken_of_secure h.secure htotal henough
  cases hstep
  have hkept : ∀ q, pmmTestBit s.machine.pmm q = true →
      pmmTestBit (pmmAlloc s.machine.pmm).2 q = true := by
    intro q hq
    rw [htaken.pmmTestBit, hq, Bool.or_true]
  have howned : (if (pmmAlloc s.machine.pmm).1 = 0 then s.owned
      else insert ((pmmAlloc s.machine.pmm).1 / pageSize) s.owned) = insert page s.owned := by
    rw [if_neg htaken.addr_ne, htaken.addr_div]
  rw [howned]
  have hsecure := h.secure
  refine ⟨⟨⟨hsecure.tables.tree, hsecure.tables.kernel, hsecure.tables.nonzero⟩,
    fun frame hreach => hkept frame (hsecure.taken frame hreach), ?_, ?_,
    fun q hq => hkept q (hsecure.low q hq)⟩, ?_, h.ceiling, h.direct⟩
  · intro frame hframe
    rcases Finset.mem_insert.mp hframe with rfl | hold
    · show pmmTestBit (pmmAlloc s.machine.pmm).2 frame = true
      rw [htaken.pmmTestBit]
      simp
    · exact hkept frame (hsecure.held frame hold)
  · intro frame hframe
    rcases Finset.mem_insert.mp hframe with rfl | hold
    · exact htaken.fresh
    · exact hsecure.apart frame hold
  · intro frame hframe
    rcases Finset.mem_insert.mp hframe with rfl | hold
    · exact htaken.ge
    · exact h.owned_ge frame hold

theorem Holds.free (h : s.Holds totalPages) {frame : ℕ} (hstep : s.step (.free frame) = some t) :
    t.Holds totalPages := by
  simp only [step] at hstep
  split at hstep
  · rename_i hframe
    cases hstep
    have hsecure := h.secure
    have hkept : ∀ q, q ≠ frame → pmmTestBit s.machine.pmm q = true →
        pmmTestBit (pmmFree s.machine.pmm (frame * pageSize)).1 q = true := by
      intro q hne hq
      rw [pmmTestBit_pmmFree, Nat.mul_div_cancel frame (by decide), hq]
      simp [hne]
    refine ⟨⟨⟨hsecure.tables.tree, hsecure.tables.kernel, hsecure.tables.nonzero⟩, ?_, ?_, ?_, ?_⟩,
      fun g hg => h.owned_ge g (Finset.mem_of_mem_erase hg), h.ceiling, h.direct⟩
    · intro g hreach
      refine hkept g ?_ (hsecure.taken g hreach)
      rintro rfl
      exact hsecure.apart g hframe hreach
    · intro g hg
      obtain ⟨hne, hold⟩ := Finset.mem_erase.mp hg
      exact hkept g hne (hsecure.held g hold)
    · intro g hg
      exact hsecure.apart g (Finset.mem_of_mem_erase hg)
    · intro q hq
      have hge := h.owned_ge frame hframe
      exact hkept q (by omega) (hsecure.low q hq)
  · cases hstep

theorem Holds.write (h : s.Holds totalPages) {frame i word : ℕ}
    (hstep : s.step (.write frame i word) = some t) : t.Holds totalPages := by
  simp only [step] at hstep
  split at hstep
  · rename_i hframe
    cases hstep
    have hsecure := h.secure
    have hunreach := hsecure.apart frame hframe
    have hagree : ∀ g, g ≠ frame → storeWord s.machine.mem frame i word g = s.machine.mem g := by
      intro g hg
      funext j
      exact storeWord_of_ne _ _ _ _ hg
    have hreach : ∀ g, Reached tableOf 1 (kernelRoot s.machine)
        (storeWord s.machine.mem frame i word) g ↔
        Reached tableOf 1 (kernelRoot s.machine) s.machine.mem g := fun g =>
      reached_congr fun root path hroot hlen => walk_of_agree hunreach hagree hroot hlen
    refine ⟨⟨⟨hsecure.tables.tree.of_agree hunreach hagree, hsecure.tables.kernel,
      hsecure.tables.nonzero⟩, ?_, hsecure.held, ?_, hsecure.low⟩, h.owned_ge, h.ceiling, ?_⟩
    · intro g hg
      exact hsecure.taken g ((hreach g).mp hg)
    · intro g hg hg'
      exact hsecure.apart g hg ((hreach g).mp hg')
    · intro page hge hlt
      rw [← h.direct page hge hlt]
      have hword := pageWord_of_agree
        (t := { s.machine with mem := storeWord s.machine.mem frame i word }) hunreach hagree
        hsecure.tables.kernel (kernelVirtualBase + page * pageSize)
      exact congrArg (·.bind presentEntry) hword
  · cases hstep

theorem Holds.step (h : s.Holds totalPages) (hend : EndsBeforeHeap totalPages)
    (htotal : totalPages ≤ maxPages) (henough : Enough totalPages s e) (hstep : s.Step e t) :
    t.Holds totalPages := by
  cases e with
  | grow => exact h.grow hend htotal henough hstep
  | alloc => exact h.alloc htotal henough hstep
  | free frame => exact h.free hstep
  | write frame i word => exact h.write hstep

section

variable (hdir : (bootMachine img info mem).kernelPageDir = img.kernelPageDir)
  (hnull : (bootMachine img info mem).kernelPageDir ≠ 0)

include hdir hnull

theorem heapInit_eq :
    vmmAlloc pmmAlloc pmmFree (bootMachine img info mem) img.kernelPageDir
      (Arch.heapStart .i386) (additionHeapPageSize * pageSize) (pagePresent ||| pageRw) =
      vmmAllocLoop pmmAlloc pmmFree (bootMachine img info mem).kernelPageDir (Arch.heapStart .i386)
        (pagePresent ||| pageRw) 256 (bootMachine img info mem) (Arch.heapStart .i386) := by
  unfold vmmAlloc
  rw [← hdir, if_neg hnull]
  rfl

theorem machine_boot :
    (boot img info mem).machine =
      (vmmAllocLoop pmmAlloc pmmFree (bootMachine img info mem).kernelPageDir (Arch.heapStart .i386)
        (pagePresent ||| pageRw) 256 (bootMachine img info mem) (Arch.heapStart .i386)).1 := by
  unfold boot
  dsimp only
  rw [heapInit_eq hdir hnull]

end

theorem Small.boot (h : Small img info) (mem : ℕ → ℕ → ℕ)
    (hroom : 512 + n ≤ freeAhead info.totalPages (bootPmm img info)) :
    (boot img info mem).Holds info.totalPages ∧
      Managed (fun _ => False) info.totalPages n (boot img info mem).machine := by
  have hmemory := h.memory
  have htotal : info.totalPages ≤ maxPages := h.fits.totalPages_bounds.2.le
  obtain ⟨hmanage, hdir, hdirect⟩ := managed_bootMachine mem info.totalPages (n + 256) h.fits
    (le_trans hmemory (by decide)) h.framebuffer htotal
    (show 256 + (n + 256) ≤ freeAhead info.totalPages (bootPmm img info) by omega)
  obtain ⟨hok, hleft, hpages⟩ := hmanage.vmmAllocLoop (Arch.heapStart .i386)
    (pagePresent ||| pageRw) (show kernelVirtualBase ≤ Arch.heapStart .i386 by decide) (by decide)
  have heq := heapInit_eq hdir (hmanage.tables.nonzero _ hmanage.tables.kernel)
  have hlow : Direct info.totalPages (bootMachine img info mem) :=
    hdirect (le_trans hmemory (by decide))
  have hnone {p : ℕ → Prop} : ∀ frame ∈ (∅ : Finset ℕ), p frame :=
    fun frame hframe => absurd hframe (Finset.notMem_empty frame)
  unfold Paging.boot
  simp only [heq, hok, if_true]
  refine ⟨⟨⟨hleft.tables, hleft.taken, hnone, hnone, hleft.low⟩, hnone, Nat.le_add_right _ _, ?_⟩,
    hleft⟩
  · apply hpages.direct hlow
    right
    unfold MultibootInfo.totalPages
    unfold Arch.heapStart kernelVirtualBase pageSize at *
    dsimp only at *
    omega

theorem Small.endsBeforeHeap (h : Small img info) : EndsBeforeHeap info.totalPages := by
  have hmemory := h.memory
  unfold EndsBeforeHeap MultibootInfo.totalPages
  unfold Arch.heapStart kernelVirtualBase pageSize at *
  dsimp only at *
  omega

theorem holds_of_run (h : Small img info) {es : List BootEvent}
    (hrun : Run (Guarded (Enough info.totalPages) Step) (boot img info mem) es s) :
    s.Holds info.totalPages := by
  refine hrun.invariant (fun s e t hs hstep => ?_) (h.boot mem (n := 0) h.room).1
  exact hs.step h.endsBeforeHeap h.fits.totalPages_bounds.2.le hstep.1 hstep.2

theorem translate_of_direct {machine : Machine Pmm.State} (h : Direct totalPages machine)
    (htotal : totalPages ≤ 2 ^ 18) (hge : reservedLowPages ≤ page)
    (hlt : page < totalPages) :
    translate machine machine.kernelPageDir (physToVirt (page * pageSize)) =
      some (page * pageSize) := by
  have haddr : physToVirt (page * pageSize) = kernelVirtualBase + page * pageSize := by
    unfold physToVirt kernelVirtualBase pageSize
    omega
  have hoff : (kernelVirtualBase + page * pageSize) % pageSize = 0 := by
    rw [Nat.add_mul_mod_self_right]
    rfl
  unfold Paging.translate
  rw [haddr, h page hge hlt, Option.map_some, hoff,
    pageWord_div_pageSize _ (by decide : pagePresent ||| pageRw < pageSize),
    Nat.mul_div_cancel page (by decide), add_zero]

/-- **The direct map.** After the boot and any growth of the heap, while frames that exist are free,
the kernel translates `phys_to_virt(f)` to `f` for every frame `f` that exists above the first
megabyte. -/
theorem direct_map_holds (hsmall : Small img info) (mem : ℕ → ℕ → ℕ) {es : List BootEvent}
    (hrun : Run (Guarded (Enough info.totalPages) Step) (boot img info mem) es s) :
    (∀ page, reservedLowPages ≤ page → page < info.totalPages →
      translate s.machine s.machine.kernelPageDir (physToVirt (page * pageSize)) =
        some (page * pageSize)) ∧
    (0 < freeAhead info.totalPages s.machine.pmm →
      translate s.machine s.machine.kernelPageDir (physToVirt (pmmAlloc s.machine.pmm).1) =
        some (pmmAlloc s.machine.pmm).1) := by
  have hholds := holds_of_run hsmall hrun
  have hmemory := hsmall.memory
  have htotal : info.totalPages ≤ 2 ^ 18 := by
    unfold MultibootInfo.totalPages
    unfold Arch.heapStart kernelVirtualBase pageSize at *
    dsimp only at *
    omega
  refine ⟨fun page hge hlt => translate_of_direct hholds.direct htotal hge hlt, fun hfree => ?_⟩
  obtain ⟨page, htaken⟩ := Managed.exists_taken_of_secure hholds.secure
    hsmall.fits.totalPages_bounds.2.le hfree
  rw [htaken.addr]
  exact translate_of_direct hholds.direct htotal htaken.ge htaken.lt

/-- A kernel of one megabyte. -/
def exampleImage : PagingImage where
  toKernelImage := Session.smallImage
  kernelPageDir := 0x180
  dir_ge := by decide
  dir_lt := by decide

/-- All memory above the first megabyte is available, without framebuffer and modules. -/
def plainMachine (megabytes : ℕ) : BootInfo where
  memUpper := (megabytes - 1) * 1024
  mmapLength := 24
  mmapAddr := 0x1000
  entryAt := fun _ =>
    { size := 20, baseLow := 0x100000, baseHigh := 0, lengthLow := (megabytes - 1) * 0x100000
      lengthHigh := 0, type := 1 }
  flags := 0
  framebufferAddr := 0
  framebufferPitch := 0
  framebufferHeight := 0
  mods := []

theorem pmmTestBit_plainMachine (hmegabytes : megabytes < 1024)
    (hge : 512 ≤ page) (hlt : page < megabytes * 256) :
    pmmTestBit (bootPmm exampleImage (plainMachine megabytes)) page = false := by
  have hmap : (plainMachine megabytes).mmapEntries = [(plainMachine megabytes).entryAt 0] := by
    simp [MultibootInfo.mmapEntries, MultibootInfo.mmapWalk, plainMachine, kernelVirtualBase]
  have hbytes : (plainMachine megabytes).totalBytes = megabytes * 0x100000 := by
    unfold MultibootInfo.totalBytes plainMachine conventionalMemoryKb
    dsimp only
    omega
  have htotal : (plainMachine megabytes).totalPages = megabytes * 256 := by
    unfold MultibootInfo.totalPages pageSize
    rw [hbytes]
    omega
  have hmods : bootPmm exampleImage (plainMachine megabytes) =
      pmmInit exampleImage.toKernelImage (plainMachine megabytes).toMultibootInfo := by
    simp [bootPmm, checkForModules, plainMachine]
  have hbit := @testBit_initBitmap exampleImage.toKernelImage
    (plainMachine megabytes).toMultibootInfo page
  rw [hmods]
  unfold pmmTestBit pmmInit
  rw [hbit, htotal, hmap]
  rw [Bool.eq_false_iff]
  simp only [List.all_cons, List.all_nil, Bool.and_true, MmapEntry.frees, ne_eq, Bool.or_eq_true,
    Bool.and_eq_true, Bool.not_eq_true', decide_eq_true_eq, decide_eq_false_iff_not]
  simp only [exampleImage, Session.smallImage, plainMachine, KernelImage.bitmapPhys,
    KernelImage.bitmapEnd, kernelVirtualBase, kernelPhysicalAddress, pageSize, reservedLowPages, true_and]
  omega

theorem totalPages_plainMachine (hge : 1 ≤ megabytes) (hlt : megabytes < 1024) :
    (plainMachine megabytes).totalPages = megabytes * 256 := by
  unfold MultibootInfo.totalPages MultibootInfo.totalBytes plainMachine conventionalMemoryKb pageSize
  dsimp only
  omega

theorem le_freeAhead_plainMachine {bound : ℕ} (hmegabytes : megabytes < 1024)
    (hbound : bound ≤ megabytes * 256) (hn : 512 + n ≤ bound) :
    n ≤ freeAhead bound (bootPmm exampleImage (plainMachine megabytes)) :=
  le_freeAhead (show reservedLowPages - 1 ≤ 512 by decide) hn fun page hge hlt =>
    pmmTestBit_plainMachine hmegabytes hge (by omega)

theorem small_plainMachine : Small exampleImage (plainMachine 16) where
  fits := (by decide : (15 * 1024 + conventionalMemoryKb) * 1024 < 2 ^ 32)
  memory := by decide
  framebuffer := by decide
  room := by
    rw [totalPages_plainMachine (by decide) (by decide)]
    exact le_freeAhead_plainMachine (by decide) (by decide) (by decide)

/-- On a machine with sixteen megabytes the direct map is whole after the heap has grown. -/
theorem sixteen_megabytes_direct_map : ∃ s,
    Run (Guarded (Enough (plainMachine 16).totalPages) Step)
      (boot exampleImage (plainMachine 16) fun _ _ => 0) [.grow] s ∧
    translate s.machine s.machine.kernelPageDir (physToVirt (1000 * pageSize)) =
      some (1000 * pageSize) := by
  have htotal := totalPages_plainMachine (show 1 ≤ 16 by decide) (by decide)
  have hroom : 512 + 3000 ≤ freeAhead (plainMachine 16).totalPages
      (bootPmm exampleImage (plainMachine 16)) := by
    rw [htotal]
    exact le_freeAhead_plainMachine (by decide) (by decide) (by decide)
  obtain ⟨hholds, hmanaged⟩ := small_plainMachine.boot (fun _ _ => 0) hroom
  have hleft := hmanaged.room
  obtain ⟨t, ht⟩ : ∃ t, Step (boot exampleImage (plainMachine 16) fun _ _ => 0) .grow t := by
    unfold Step step
    dsimp only
    split <;> exact ⟨_, rfl⟩
  have hrun : Run (Guarded (Enough (plainMachine 16).totalPages) Step)
      (boot exampleImage (plainMachine 16) fun _ _ => 0) [.grow] t :=
    .cons ⟨show 768 ≤ _ by omega, ht⟩ (.nil t)
  refine ⟨t, hrun, (direct_map_holds small_plainMachine _ hrun).1 1000 (by decide) ?_⟩
  rw [htotal]
  decide

/-- **The heap window covers the direct map.** With 257 megabytes the page 65536 is free when paging
starts, but after the boot its `phys_to_virt` is the first page of the heap. -/
theorem heap_window_covers_direct_map :
    (plainMachine 257).totalBytes < 2 ^ 30 - 2 ^ 20 ∧ 65536 < (plainMachine 257).totalPages ∧
      pmmTestBit (bootPmm exampleImage (plainMachine 257)) 65536 = false ∧
      ∃ frame, frame < 65536 ∧
        translate (boot exampleImage (plainMachine 257) fun _ _ => 0).machine
          exampleImage.kernelPageDir (physToVirt (65536 * pageSize)) = some (frame * pageSize) := by
  have htotal := totalPages_plainMachine (show 1 ≤ 257 by decide) (by decide)
  refine ⟨by decide, by rw [htotal]; decide, pmmTestBit_plainMachine (by decide) (by decide)
    (by decide), ?_⟩
  have hroom : 256 + (0 + 256) ≤ freeAhead 65536 (bootPmm exampleImage (plainMachine 257)) :=
    le_freeAhead_plainMachine (by decide) (by decide) (by decide)
  have hfits : (plainMachine 257).Fits :=
    (by decide : (256 * 1024 + conventionalMemoryKb) * 1024 < 2 ^ 32)
  obtain ⟨hmanaged, hdir, -⟩ := managed_bootMachine (fun _ _ => 0) 65536 (0 + 256) hfits (by decide)
    (by decide) (by decide) hroom
  obtain ⟨-, -, hpages⟩ := hmanaged.vmmAllocLoop (Arch.heapStart .i386)
    (pagePresent ||| pageRw) (show kernelVirtualBase ≤ Arch.heapStart .i386 by decide) (by decide)
  obtain ⟨entry, hentry, frame, -, hframe, heq⟩ := hpages.inside (Arch.heapStart .i386)
    (le_refl _) (by decide)
  refine ⟨frame, hframe, ?_⟩
  have hmachine := machine_boot hdir (hmanaged.tables.nonzero _ hmanaged.tables.kernel)
  have haddr : physToVirt (65536 * pageSize) = Arch.heapStart .i386 := by decide
  have hoffset : Arch.heapStart .i386 % pageSize = 0 := by decide
  unfold translate
  rw [hmachine, haddr, ← hdir, hentry, Option.map_some, heq,
    pageWord_div_pageSize _ (by decide : pagePresent ||| pageRw < pageSize),
    Nat.mul_div_cancel frame (by decide), hoffset, add_zero]

end System

end Taavi.Paging
