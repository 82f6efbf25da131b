import Taavi.Memory.Exec

/-!
# What the ELF loader reads

`elf_load` with the offsets of its buffer that it reads. It depends on the virtual memory manager
only through its answers, so that is a parameter; `elfReads_elfLoad` puts the machine's own in its
place.
-/

namespace Taavi.Paging

open Lib Pmm List

/-- The answers of the virtual memory manager, over any state of it. -/
structure Vmm (σ : Type) where
  alloc : Phdr → σ → σ × Bool
  fill : Phdr → ℕ → σ → Option σ

/-- A run of the loader: the offsets read, the state it leaves and whether it went through. -/
structure Reading (σ : Type) where
  reads : List ℕ
  state : σ
  ok : Bool

def Reading.after {σ : Type} (reads : List ℕ) (r : Reading σ) : Reading σ :=
  { r with reads := reads ++ r.reads }

/-- The tests of `elf_check_file`, each with the offsets it reads. -/
def fileChecks (data : Memory) : List (List ℕ × Bool) :=
  [([0], data 0 == 0x7F), ([1], data 1 == 0x45), ([2], data 2 == 0x4C), ([3], data 3 == 0x46)]

def supportedChecks (data : Memory) : List (List ℕ × Bool) :=
  fileChecks data ++ [([4], data 4 == 1), ([5], data 5 == 1),
    (range' 18 2, data.read 18 2 == 3), ([6], data 6 == 1),
    (range' 16 2, data.read 16 2 == 1 || data.read 16 2 == 2)]

/-- Tests in turn, up to the first that fails. -/
def runChecks : List (List ℕ × Bool) → List ℕ × Bool
  | [] => ([], true)
  | (reads, ok) :: rest =>
    if ok then (reads ++ (runChecks rest).1, (runChecks rest).2) else (reads, false)

def elfChecks (data : Memory) : List ℕ × Bool :=
  runChecks (fileChecks data ++ supportedChecks data)

/-- The offset of the byte that is copied to the given place of a page of a segment. -/
def Phdr.source (p : Phdr) (j x : ℕ) : ℕ := (p.offset + j * pageSize + x) % 2 ^ 32

/-- The offset of a program header. -/
def phdrStart (data : Memory) (i : ℕ) : ℕ := (data.read 28 4 + i * data.read 42 2) % 2 ^ 32

section

variable {σ : Type} (vmm : Vmm σ) (data : Memory)

def copyPages (i : ℕ) : ℕ → ℕ → σ → Reading σ
  | 0, _, s => ⟨[], s, true⟩
  | left + 1, j, s =>
    let p := phdrAt data i
    let start := phdrStart data i
    let fields := range' (start + 4) 4 ++ range' (start + 16) 4 ++
      range' (start + 8) 4
    match vmm.fill p j s with
    | none => ⟨fields, s, false⟩
    | some s =>
      (copyPages i left (j + 1) s).after (fields ++ (List.range (p.toCopy j)).map (p.source j))

/-- The loop over the program headers. -/
def readSegments : ℕ → ℕ → σ → Reading σ
  | 0, _, s => ⟨range' 44 2, s, true⟩
  | left + 1, i, s =>
    let p := phdrAt data i
    let start := phdrStart data i
    let head := range' 44 2 ++ range' 28 4 ++ range' 42 2 ++ range' start 4
    if p.type ≠ ptLoad then (readSegments left (i + 1) s).after head
    else
      let fields := head ++ range' (start + 20) 4 ++ range' (start + 24) 4 ++
        range' (start + 8) 4
      match vmm.alloc p s with
      | (s, false) => ⟨fields, s, false⟩
      | (s, true) =>
        let pages := copyPages vmm data i p.pages 0 s
        if pages.ok then
          (readSegments left (i + 1) pages.state).after
            (fields ++ pages.reads ++ range' (start + 8) 4)
        else pages.after fields

def elfReads (s : σ) : Reading σ :=
  if (elfChecks data).2 then
    let r := readSegments vmm data (data.read 44 2) 0 s
    if r.ok then ⟨(elfChecks data).1 ++ r.reads ++ range' 24 4, r.state, true⟩
    else r.after (elfChecks data).1
  else ⟨(elfChecks data).1, s, false⟩

end

section

variable (data : Memory) (dir : ℕ)

def machineVmm : Vmm Kernel where
  alloc p s := vmmAlloc pmmAlloc pmmFree s dir p.vaddr p.size p.pageFlags
  fill p j s :=
    let phys := pagingGetPhys s dir ((p.vaddr + j * pageSize) % 2 ^ 32)
    if phys = invalidPhysicalPage then none
    else
      let content := pageContent data (p.offset + j * pageSize) (p.toCopy j)
      some { s with mem := assign s.mem (phys / pageSize) content }

theorem copyPages_fillPages (i left j : ℕ) (s : Kernel) :
    ((copyPages (machineVmm data dir) data i left j s).state,
      (copyPages (machineVmm data dir) data i left j s).ok) =
        fillPages data (phdrAt data i) dir left j s := by
  induction left generalizing j s with
  | zero => rfl
  | succ left ih =>
    simp only [copyPages, fillPages, machineVmm]
    split_ifs with hphys
    · rfl
    · exact ih (j + 1) _

theorem readSegments_loadSegments (left i headerEnd : ℕ) (s : Kernel) :
    ((readSegments (machineVmm data dir) data left i s).state,
      (readSegments (machineVmm data dir) data left i s).ok) =
        ((loadSegments data dir left i s headerEnd).1,
          (loadSegments data dir left i s headerEnd).2.isSome) := by
  induction left generalizing i s headerEnd with
  | zero => rfl
  | succ left ih =>
    simp only [readSegments, loadSegments]
    split_ifs with htype
    · exact ih (i + 1) _ s
    · have hpages := copyPages_fillPages data dir i (phdrAt data i).pages 0
      rcases halloc : (machineVmm data dir).alloc (phdrAt data i) s with ⟨t, _ | _⟩
      · have hmachine : vmmAlloc pmmAlloc pmmFree s dir _ _ _ = (t, false) := halloc
        simp only [hmachine, Option.isSome_none]
      · have hmachine : vmmAlloc pmmAlloc pmmFree s dir _ _ _ = (t, true) := halloc
        simp only [hmachine, ← hpages t]
        rcases hok : (copyPages (machineVmm data dir) data i (phdrAt data i).pages 0 t).ok
          with _ | _
        · simp only [Bool.false_eq_true, if_false, Reading.after, hok, Option.isSome_none]
        · exact ih (i + 1) _ _

theorem runChecks_ok (checks : List (List ℕ × Bool)) :
    (runChecks checks).2 = true ↔ ∀ c ∈ checks, c.2 = true := by
  induction checks with
  | nil => simp [runChecks]
  | cons c checks ih =>
    obtain ⟨reads, _ | _⟩ := c
    · simp [runChecks]
    · simp [runChecks, ih]

theorem checks_ok : (elfChecks data).2 = (elfCheckFile data && elfCheckSupported data) := by
  rw [Bool.eq_iff_iff, elfChecks, runChecks_ok]
  simp [fileChecks, supportedChecks, elfCheckFile, elfCheckSupported, and_assoc]

theorem elfReads_elfLoad (s : Kernel) :
    (elfReads (machineVmm data dir) data s).state = (elfLoad data s dir).1 ∧
      (elfReads (machineVmm data dir) data s).ok = (elfLoad data s dir).2.isSome := by
  have hrun := readSegments_loadSegments data dir (data.read 44 2) 0 0 s
  rw [Prod.mk.injEq] at hrun
  simp only [elfReads, elfLoad, checks_ok]
  split_ifs with hchecks hok
  · exact ⟨hrun.1, by rw [Option.isSome_map, ← hrun.2, hok]⟩
  · exact ⟨hrun.1, by rw [Option.isSome_map, ← hrun.2]; rfl⟩
  · exact ⟨rfl, rfl⟩

end

/-- A program header, or the part of the file of a segment, goes on after the end of the file. -/
def ReachesBeyond (data : Memory) (n : ℕ) : Prop :=
  ∃ i < data.read 44 2, n < data.read 28 4 + (i + 1) * data.read 42 2 ∨
    (phdrAt data i).type = ptLoad ∧ n < (phdrAt data i).offset + (phdrAt data i).filesz

/-- Whatever the memory manager answers, the loader reads only the file, and answers `STATUS_ERROR`
when the file reaches beyond its end. -/
def ReadsOnlyFile (data : Memory) (n : ℕ) : Prop :=
  ∀ (σ : Type) (vmm : Vmm σ) (s : σ), (∀ offset ∈ (elfReads vmm data s).reads, offset < n) ∧
    (ReachesBeyond data n → (elfReads vmm data s).ok = false ∨ data.read 24 4 = 2 ^ 32 - 1)

/-- One of the first six bytes is wrong, or the file has twenty bytes and is not supported. -/
def RefusedInside (data : Memory) (n : ℕ) : Prop :=
  0 < n ∧ data 0 ≠ 0x7F ∨ 1 < n ∧ data 1 ≠ 0x45 ∨ 2 < n ∧ data 2 ≠ 0x4C ∨
    3 < n ∧ data 3 ≠ 0x46 ∨ 4 < n ∧ data 4 ≠ 1 ∨ 5 < n ∧ data 5 ≠ 1 ∨
      20 ≤ n ∧ (data.read 18 2 ≠ 3 ∨ data 6 ≠ 1 ∨ data.read 16 2 ≠ 1 ∧ data.read 16 2 ≠ 2)

/-- What is read for a program header: its type, and the fields and bytes of a segment to load. -/
def AtReads (data : Memory) (i : ℕ) (P : ℕ → Prop) : Prop :=
  P (phdrStart data i + 3) ∧ ((phdrAt data i).type = ptLoad → P (phdrStart data i + 27) ∧
    ∀ j < (phdrAt data i).pages, ∀ x < (phdrAt data i).toCopy j, P ((phdrAt data i).source j x))

/-- What the loader reads is in the file, which does not reach beyond its end unless its entry
point is `STATUS_ERROR`. -/
def LiesInside (data : Memory) (n : ℕ) : Prop :=
  46 ≤ n ∧ (ReachesBeyond data n → data.read 24 4 = 2 ^ 32 - 1) ∧
    ∀ i < data.read 44 2, AtReads data i (· < n)

section

variable {σ : Type} {vmm : Vmm σ} {data : Memory} {n : ℕ}

theorem AtReads.mono {i : ℕ} {P Q : ℕ → Prop} (h : AtReads data i P) (hPQ : ∀ r, P r → Q r) :
    AtReads data i Q :=
  ⟨hPQ _ h.1, fun htype => ⟨hPQ _ (h.2 htype).1, fun j hj x hx => hPQ _ ((h.2 htype).2 j hj x hx)⟩⟩

theorem refusedInside_iff : RefusedInside data n ↔
    (elfChecks data).2 = false ∧ ∀ r ∈ (elfChecks data).1, r < n := by
  have hmachine : range' 18 2 = [18, 19] := rfl
  have htype : range' 16 2 = [16, 17] := rfl
  simp only [elfChecks, fileChecks, supportedChecks, cons_append, nil_append, runChecks,
    beq_iff_eq, Bool.or_eq_true, RefusedInside, hmachine, htype]
  split_ifs <;> simp_all <;> omega

theorem checks_reads_lt {r : ℕ} (hr : r ∈ (elfChecks data).1) : r < 20 := by
  revert r
  simp only [elfChecks, fileChecks, supportedChecks, cons_append, nil_append, runChecks]
  split_ifs <;> simp <;> omega

theorem copyPages_reads_lt {i : ℕ} (hstart : phdrStart data i + 28 ≤ n) (left j : ℕ)
    (hbytes : ∀ k < j + left, ∀ x < (phdrAt data i).toCopy k, (phdrAt data i).source k x < n)
    (s : σ) : ∀ r ∈ (copyPages vmm data i left j s).reads, r < n := by
  induction left generalizing j s with
  | zero => simp [copyPages]
  | succ left ih =>
    simp only [copyPages]
    split
    · simp only [mem_append, mem_range'_1]
      omega
    · simp only [Reading.after, mem_append, mem_range'_1, mem_map, mem_range]
      rintro r ((hfield | ⟨x, hx, rfl⟩) | hrest)
      · omega
      · exact hbytes j (by omega) x hx
      · exact ih (j + 1) (fun k hk => hbytes k (by omega)) _ r hrest

theorem readSegments_reads_lt (hinside : LiesInside data n) (left i : ℕ)
    (hleft : i + left ≤ data.read 44 2) (s : σ) :
    ∀ r ∈ (readSegments vmm data left i s).reads, r < n := by
  obtain ⟨hn, -, hheaders⟩ := hinside
  induction left generalizing i s with
  | zero =>
    simp only [readSegments, mem_range'_1]
    omega
  | succ left ih =>
    obtain ⟨hstart, hfields⟩ := hheaders i (by omega)
    have hrest := ih (i + 1) (by omega)
    simp only [readSegments]
    split_ifs with htype
    · simp only [Reading.after, mem_append, mem_range'_1]
      rintro r (hread | hread)
      · omega
      · exact hrest s r hread
    · obtain ⟨hload, hbytes⟩ := hfields (not_not.mp htype)
      have hpages (s : σ) : ∀ r ∈ (copyPages vmm data i (phdrAt data i).pages 0 s).reads, r < n :=
        copyPages_reads_lt hload _ 0 (by simpa using hbytes) s
      split
      · simp only [mem_append, mem_range'_1]
        omega
      · split_ifs
        · simp only [Reading.after, mem_append, mem_range'_1]
          rintro r (((hread | hread) | hread) | hread)
          · omega
          · exact hpages _ r hread
          · omega
          · exact hrest _ r hread
        · simp only [Reading.after, mem_append, mem_range'_1]
          rintro r (hread | hread)
          · omega
          · exact hpages _ r hread

/-- A memory manager that is never short of memory. -/
def everyPage : Vmm Unit where
  alloc _ s := (s, true)
  fill _ _ s := some s

variable (data)

theorem copyPages_everyPage (i left j : ℕ) :
    (copyPages everyPage data i left j ()).ok = true ∧
      ∀ k, j ≤ k → k < j + left → ∀ x < (phdrAt data i).toCopy k,
        (phdrAt data i).source k x ∈ (copyPages everyPage data i left j ()).reads := by
  induction left generalizing j with
  | zero => exact ⟨rfl, fun k hjk hk => by omega⟩
  | succ left ih =>
    refine ⟨(ih (j + 1)).1, fun k hjk hk x hx => ?_⟩
    simp only [copyPages, everyPage, Reading.after, mem_append, mem_map]
    rcases hjk.eq_or_lt with rfl | hlt
    · exact .inl (.inr ⟨x, mem_range.mpr hx, rfl⟩)
    · exact .inr ((ih (j + 1)).2 k hlt (by omega) x hx)

theorem readSegments_everyPage_succ (left i : ℕ) : ∃ reads,
    readSegments everyPage data (left + 1) i () =
      (readSegments everyPage data left (i + 1) ()).after reads ∧ AtReads data i (· ∈ reads) := by
  by_cases htype : (phdrAt data i).type = ptLoad
  · obtain ⟨hok, hbytes⟩ := copyPages_everyPage data i (phdrAt data i).pages 0
    refine ⟨_, (if_neg (not_not.mpr htype)).trans (if_pos hok), by simp,
      fun _ => ⟨by simp, fun j hj x hx => ?_⟩⟩
    have hbyte := hbytes j (Nat.zero_le j) (by omega) x hx
    exact mem_append_left _ (mem_append_right _ hbyte)
  · exact ⟨_, if_pos htype, by simp, fun hload => absurd hload htype⟩

theorem readSegments_everyPage (left i : ℕ) :
    (readSegments everyPage data left i ()).ok = true ∧
      45 ∈ (readSegments everyPage data left i ()).reads := by
  induction left generalizing i with
  | zero => exact ⟨rfl, by simp [readSegments]⟩
  | succ left ih =>
    obtain ⟨reads, hrun, -⟩ := readSegments_everyPage_succ data left i
    rw [hrun]
    exact ⟨(ih (i + 1)).1, mem_append_right _ (ih (i + 1)).2⟩

theorem atReads_readSegments {i k left : ℕ} (hik : i ≤ k) (hk : k < i + left) :
    AtReads data k (· ∈ (readSegments everyPage data left i ()).reads) := by
  induction left generalizing i with
  | zero => omega
  | succ left ih =>
    obtain ⟨reads, hrun, hround⟩ := readSegments_everyPage_succ data left i
    rw [hrun]
    rcases hik.eq_or_lt with rfl | hlt
    · exact hround.mono fun r hr => mem_append_left _ hr
    · exact (ih hlt (by omega)).mono fun r hr => mem_append_right _ hr

end

/-- The loader reads only the file, and refuses one that reaches beyond its end, exactly when it
refuses its header by bytes that it has, or everything it reads is in the file. -/
theorem reads_only_file_iff (data : Memory) (n : ℕ) :
    ReadsOnlyFile data n ↔ RefusedInside data n ∨ LiesInside data n := by
  rcases hchecks : (elfChecks data).2 with _ | _
  · have hrefused (σ : Type) (vmm : Vmm σ) (s : σ) : elfReads vmm data s =
        ⟨(elfChecks data).1, s, false⟩ := by
      simp only [elfReads, hchecks, Bool.false_eq_true, if_false]
    constructor
    · intro honly
      have hreads := (honly Unit everyPage ()).1
      rw [hrefused] at hreads
      exact .inl (refusedInside_iff.mpr ⟨hchecks, hreads⟩)
    · intro hcase σ vmm s
      rw [hrefused]
      refine ⟨fun r hr => ?_, fun _ => .inl rfl⟩
      rcases hcase with hinside | hinside
      · exact (refusedInside_iff.mp hinside).2 r hr
      · exact (checks_reads_lt hr).trans_le (by have := hinside.1; omega)
  · have hnot : ¬ RefusedInside data n := fun hinside => by
      rw [refusedInside_iff, hchecks] at hinside
      exact Bool.noConfusion hinside.1
    rw [or_iff_right hnot]
    constructor
    · intro honly
      obtain ⟨hreads, hbeyond⟩ := honly Unit everyPage ()
      obtain ⟨hok, hnumber⟩ := readSegments_everyPage data (data.read 44 2) 0
      simp only [elfReads, hchecks, hok, if_true, mem_append] at hreads hbeyond
      refine ⟨hreads 45 (.inl (.inr hnumber)), fun h => (hbeyond h).resolve_left (by simp),
        fun i hi => ?_⟩
      have hround := atReads_readSegments data (Nat.zero_le i) (hi.trans_eq (zero_add _).symm)
      exact hround.mono fun r hr => hreads r (.inl (.inr hr))
    · intro hinside σ vmm s
      refine ⟨?_, fun h => .inr (hinside.2.1 h)⟩
      have hn := hinside.1
      have hsegments : ∀ r ∈ (readSegments vmm data (data.read 44 2) 0 s).reads, r < n :=
        readSegments_reads_lt hinside _ 0 (zero_add _).le s
      have hheader (r : ℕ) (hr : r ∈ (elfChecks data).1) :
          r < n := (checks_reads_lt hr).trans_le (by omega)
      simp only [elfReads, hchecks, if_true]
      split_ifs
      · simp only [mem_append, mem_range'_1]
        rintro r ((hr | hr) | hr)
        · exact hheader r hr
        · exact hsegments r hr
        · omega
      · simp only [Reading.after, mem_append]
        rintro r (hr | hr)
        · exact hheader r hr
        · exact hsegments r hr

def headerOnly : Memory := fun k =>
  [0x7F, 0x45, 0x4C, 0x46, 1, 1, 1, 0, 0, 0, 0, 0, 0, 0, 0, 0, 2, 0, 3, 0, 1, 0, 0, 0,
    0, 0, 0, 8, 52, 0, 0, 0, 0, 0, 0, 0, 0, 0, 0, 0, 52, 0, 32, 0, 1].getD k 0

/-- Such a file of 52 bytes is not refused, and the loader reads the four bytes after it. -/
theorem header_table_after_the_file :
    ¬ ReadsOnlyFile headerOnly 52 ∧ ReachesBeyond headerOnly 52 ∧
      (elfReads everyPage headerOnly ()).ok = true ∧
        52 ∈ (elfReads everyPage headerOnly ()).reads := by
  have hread : 52 ∈ (elfReads everyPage headerOnly ()).reads := by decide
  refine ⟨fun honly => ?_, ⟨0, by decide, .inl (by decide)⟩, by decide, hread⟩
  exact absurd ((honly Unit everyPage ()).1 52 hread) (by decide)

end Taavi.Paging
