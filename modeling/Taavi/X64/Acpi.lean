import Mathlib.Data.UInt
import Taavi.Lib.ByteMemory

/-!
# The ACPI tables

`kernel/arch/x86_64/protocols/acpi.c` finds the table `APIC` and goes through its entries. The reads
of that loop are logged. Addresses are those of the direct map, and no table wraps around.
-/

namespace Taavi.X64

open Lib List

section

variable (mem : Memory)

def acpiMaxCpus : ℕ := 64

def acpiMaxIoapics : ℕ := 8

def acpiMaxIsos : ℕ := 16

structure AcpiCpu where
  apicId : ℕ
  enabled : ℕ
deriving DecidableEq

structure AcpiIoapic where
  id : ℕ
  phys : ℕ
  gsiBase : ℕ
deriving DecidableEq

structure AcpiIso where
  sourceIrq : ℕ
  gsi : ℕ
  flags : ℕ
deriving DecidableEq

/-- The global `acpi_info`. An array has as many entries as its counter says. -/
structure AcpiInfo where
  lapicPhys : ℕ
  cpus : List AcpiCpu
  ioapics : List AcpiIoapic
  isos : List AcpiIso
deriving DecidableEq

def acpiCheksum (p len : ℕ) : Bool := ((List.range len).map fun i => mem (p + i)).sum == 0

def sdtHeaderSize : ℕ := 36

def sdtLength (table : ℕ) : ℕ := mem.read (table + 4) 4

def acpiFindTable (rsdp hhdm : ℕ) (sig : List UInt8) : Option ℕ :=
  let xsdt := mem.read (rsdp + 24) 8
  let wide := 2 ≤ mem (rsdp + 15) ∧ xsdt ≠ 0
  let hdr := if wide then xsdt + hhdm else mem.read (rsdp + 16) 4 + hhdm
  let entrySize := if wide then 8 else 4
  if sdtLength mem hdr < sdtHeaderSize then none
  else if acpiCheksum mem hdr (sdtLength mem hdr) then
    let entries := (List.range ((sdtLength mem hdr - sdtHeaderSize) / entrySize)).map fun i =>
      mem.read (hdr + sdtHeaderSize + i * entrySize) entrySize
    ((entries.filter (· ≠ 0)).map (· + hhdm)).find? fun table =>
      sdtHeaderSize ≤ sdtLength mem table ∧ (List.range 4).map (fun i => mem (table + i)) = sig ∧
        acpiCheksum mem table (sdtLength mem table)
  else none

/-- The `switch` of the loop, with the addresses of the fields that it reads. -/
def madtEntry (info : AcpiInfo) (current length : ℕ) : AcpiInfo × List ℕ :=
  match (mem current).toNat with
  | 0 =>
    if length < 8 then (info, [])
    else if mem.read (current + 4) 4 % 2 = 0 ∨ acpiMaxCpus ≤ info.cpus.length then
      (info, List.range' (current + 4) 4)
    else ({ info with cpus := info.cpus ++ [⟨(mem (current + 3)).toNat,
      mem.read (current + 4) 4 % 2⟩] }, List.range' (current + 3) 5)
  | 1 =>
    if length < 12 ∨ acpiMaxIoapics ≤ info.ioapics.length then (info, [])
    else ({ info with ioapics := info.ioapics ++ [⟨(mem (current + 2)).toNat,
      mem.read (current + 4) 4, mem.read (current + 8) 4⟩] },
        (current + 2) :: List.range' (current + 4) 8)
  | 2 =>
    if length < 10 ∨ acpiMaxIsos ≤ info.isos.length then (info, [])
    else ({ info with isos := info.isos ++ [⟨(mem (current + 3)).toNat,
      mem.read (current + 4) 4, mem.read (current + 8) 2⟩] }, List.range' (current + 3) 7)
  | 5 =>
    if length < 12 then (info, [])
    else ({ info with lapicPhys := mem.read (current + 4) 8 }, List.range' (current + 4) 8)
  | _ => (info, [])

/-- The loop of `run_acpi_protocol`, with the addresses that it reads. -/
def madtLoop (stop : ℕ) : ℕ → ℕ → AcpiInfo → Option (AcpiInfo × List ℕ)
  | 0, _, _ => none
  | fuel + 1, current, info =>
    if current < stop then
      let length := (mem (current + 1)).toNat
      if length < 2 ∨ stop < current + length then some (info, [current, current + 1])
      else
        let (info', reads) := madtEntry mem info current length
        (madtLoop stop fuel (current + length) info').map
          (Prod.map id (current :: (current + 1) :: reads ++ ·))
    else some (info, [])

def madtSize : ℕ := 44

/-- `run_acpi_protocol`: its success, what it collects, and the addresses its loop reads. -/
def runAcpiProtocol (rsdp hhdm fuel : ℕ) (info : AcpiInfo) : Option (Bool × AcpiInfo × List ℕ) :=
  let p := rsdp + hhdm
  if rsdp = 0 ∨ (List.range 8).map (fun i => mem (p + i)) ≠ [82, 83, 68, 32, 80, 84, 82, 32] ∨
      acpiCheksum mem p 20 = false ∨
      2 ≤ mem (p + 15) ∧ acpiCheksum mem p (mem.read (p + 20) 4) = false then
    some (false, info, [])
  else
    match acpiFindTable mem p hhdm [65, 80, 73, 67] with
    | none => some (false, info, [])
    | some madt =>
      if sdtLength mem madt < madtSize then some (false, info, [])
      else (madtLoop mem (madt + sdtLength mem madt) fuel (madt + madtSize)
        { info with lapicPhys := mem.read (madt + sdtHeaderSize) 4 }).map (true, ·)

end

section

variable {mem : Memory} {stop current fuel : ℕ} {info : AcpiInfo}

/-- The positions of the entries from a position on, with that at which the loop ends. -/
inductive EntryAt (mem : Memory) (stop : ℕ) : ℕ → ℕ → Prop
  | here (p : ℕ) : EntryAt mem stop p p
  | next {p q : ℕ} : 2 ≤ (mem (p + 1)).toNat → p + (mem (p + 1)).toNat ≤ stop →
      EntryAt mem stop (p + (mem (p + 1)).toNat) q → EntryAt mem stop p q

theorem EntryAt.le {q : ℕ} (h : EntryAt mem stop current q) : current ≤ q := by
  induction h with
  | here p => exact le_rfl
  | next _ _ _ ih => exact (Nat.le_add_right _ _).trans ih

/-- An entry is read only as far as its length. -/
theorem madtEntry_reads (length a : ℕ) (ha : a ∈ (madtEntry mem info current length).2) :
    current ≤ a ∧ a < current + length := by
  unfold madtEntry at ha
  split at ha
  case h_5 => simp at ha
  all_goals split_ifs at ha <;> simp at ha <;> omega

/-- The reads of one turn of the loop lie in its entry. -/
theorem mem_reads {a length : ℕ} {reads : List ℕ} (htwo : 2 ≤ length)
    (ha : a ∈ current :: (current + 1) :: (madtEntry mem info current length).2 ++ reads) :
    current ≤ a ∧ a < current + length ∨ a ∈ reads := by
  simp only [cons_append, mem_cons, mem_append] at ha
  rcases ha with rfl | rfl | ha | ha
  · omega
  · omega
  · exact .inl (madtEntry_reads length a ha)
  · exact .inr ha

/-- The loop ends, and leaves the table only at an entry cut after its first byte. -/
theorem madtLoop_reads (hfuel : stop - current < fuel) :
    ∃ info' reads, madtLoop mem stop fuel current info = some (info', reads) ∧
      (∀ a ∈ reads, current ≤ a) ∧
      ((∀ a ∈ reads, a < stop) ↔ ∀ p, EntryAt mem stop current p → p + 1 ≠ stop) := by
  induction fuel generalizing current info with
  | zero => omega
  | succ fuel ih =>
    simp only [madtLoop]
    split_ifs with hlt hbreak
    · refine ⟨info, _, rfl, by simp, ?_⟩
      have hentry : ∀ p, EntryAt mem stop current p → p = current := by
        intro p hp
        cases hp with
        | here => rfl
        | next htwo hle _ => omega
      constructor
      · intro hreads p hp
        have := hreads (current + 1) (by simp)
        rw [hentry p hp]
        omega
      · intro hpos a ha
        have := hpos current (.here current)
        simp only [mem_cons, not_mem_nil, or_false] at ha
        omega
    · obtain ⟨htwo, hle⟩ := not_or.mp hbreak
      obtain ⟨info', reads, hloop, hge, hiff⟩ :=
        @ih (current + (mem (current + 1)).toNat)
          (madtEntry mem info current (mem (current + 1)).toNat).1 (by omega)
      rw [hloop]
      refine ⟨info', _, rfl, fun a ha => ?_, ⟨fun hinside p hp => ?_, fun hpos a ha => ?_⟩⟩
      · rcases mem_reads (by omega) ha with hread | hread
        · exact hread.1
        · exact (Nat.le_add_right _ _).trans (hge a hread)
      · cases hp with
        | here => omega
        | next _ _ hrest =>
          exact hiff.mp (fun a ha => hinside a (by simp [ha])) p hrest
      · rcases mem_reads (by omega) ha with hread | hread
        · omega
        · exact hiff.mpr (fun p hp => hpos p (.next (by omega) (by omega) hp)) a hread
    · refine ⟨info, [], rfl, by simp, ⟨fun _ p hp => ?_, by simp⟩⟩
      have := hp.le
      omega

/-- The loop reads inside the table exactly when no entry starts at its last byte. -/
theorem madt_reads_inside_iff {madt : ℕ} (hsize : madtSize ≤ sdtLength mem madt)
    (hfuel : sdtLength mem madt ≤ fuel) :
    ∃ info' reads, madtLoop mem (madt + sdtLength mem madt) fuel (madt + madtSize) info =
        some (info', reads) ∧
      ((∀ a ∈ reads, madt ≤ a ∧ a < madt + sdtLength mem madt) ↔
        ∀ p, EntryAt mem (madt + sdtLength mem madt) (madt + madtSize) p →
          p + 1 ≠ madt + sdtLength mem madt) := by
  have hpos : 0 < madtSize := by decide
  have hlt : madt + sdtLength mem madt - (madt + madtSize) < fuel := by omega
  obtain ⟨info', reads, hloop, hge, hiff⟩ := @madtLoop_reads mem _ _ fuel info hlt
  refine ⟨info', reads, hloop, Iff.trans ?_ hiff⟩
  exact ⟨fun h a ha => (h a ha).2, fun h a ha => ⟨(Nat.le_add_right _ _).trans (hge a ha), h a ha⟩⟩

def sealTable (i : ℕ) (table : List UInt8) : List UInt8 := table.set i (0 - table.sum)

/-- The root pointer at address 1, the root table at 21, and at 61 the table of some entries. -/
def exampleTables (entries : List UInt8) : Memory := fun a =>
  (0 :: sealTable 8 ([82, 83, 68, 32, 80, 84, 82, 32] ++ .replicate 8 0 ++ [21, 0, 0, 0]) ++
    sealTable 9 ([82, 83, 68, 84, 40, 0, 0, 0] ++ .replicate 28 0 ++ [61, 0, 0, 0]) ++
    sealTable 9 ([65, 80, 73, 67, .ofNat (44 + entries.length), 0, 0, 0] ++ .replicate 36 0 ++
      entries)).getD a 0

theorem whole_entry_is_inside : ∃ info reads,
    madtLoop (exampleTables [7, 2]) 107 107 105 ⟨0, [], [], []⟩ = some (info, reads) ∧
      ∀ a ∈ reads, 61 ≤ a ∧ a < 107 := by
  have hlength : sdtLength (exampleTables [7, 2]) 61 = 46 := by decide +kernel
  have hbyte : (exampleTables [7, 2] 106).toNat = 2 := by decide +kernel
  have hinside := @madt_reads_inside_iff (exampleTables [7, 2]) 107 ⟨0, [], [], []⟩ 61
    (by rw [hlength]; decide) (by rw [hlength]; decide)
  rw [hlength] at hinside
  obtain ⟨info, reads, hloop, hiff⟩ := hinside
  refine ⟨info, reads, hloop, hiff.mpr fun p hp => ?_⟩
  change EntryAt _ 107 105 p at hp
  cases hp with
  | here => decide
  | next _ _ hp =>
    rw [hbyte] at hp
    cases hp with
    | here => decide
    | next htwo _ _ => omega

theorem cut_entry_is_read :
    acpiFindTable (exampleTables [7]) 1 0 [65, 80, 73, 67] = some 61 ∧
      sdtLength (exampleTables [7]) 61 = 45 ∧
      runAcpiProtocol (exampleTables [7]) 1 0 45 ⟨0, [], [], []⟩ =
        some (true, ⟨0, [], [], []⟩, [105, 106]) := by
  decide +kernel

end

variable (mem : Memory)

/-- The size of the structure for a type of entries. -/
def entrySize : ℕ → ℕ
  | 0 => 8
  | 1 => 12
  | 2 => 10
  | 5 => 12
  | _ => 2

/-- The positions of complete entries that fill a table up to its end. -/
inductive Entries (stop : ℕ) : ℕ → List ℕ → Prop
  | nil : Entries stop stop []
  | cons {p : ℕ} {ps : List ℕ} : 2 ≤ (mem (p + 1)).toNat →
      entrySize (mem p).toNat ≤ (mem (p + 1)).toNat →
      Entries stop (p + (mem (p + 1)).toNat) ps → Entries stop p (p :: ps)

/-- An enabled local APIC. -/
def cpuAt (p : ℕ) : Option AcpiCpu :=
  if (mem p).toNat = 0 ∧ mem.read (p + 4) 4 % 2 = 1 then some ⟨(mem (p + 3)).toNat, 1⟩ else none

def ioapicAt (p : ℕ) : Option AcpiIoapic :=
  if (mem p).toNat = 1 then
    some ⟨(mem (p + 2)).toNat, mem.read (p + 4) 4, mem.read (p + 8) 4⟩
  else none

def isoAt (p : ℕ) : Option AcpiIso :=
  if (mem p).toNat = 2 then
    some ⟨(mem (p + 3)).toNat, mem.read (p + 4) 4, mem.read (p + 8) 2⟩
  else none

/-- The address of an entry that overrides that of the header. -/
def overrideAt (p : ℕ) : Option ℕ :=
  if (mem p).toNat = 5 then some (mem.read (p + 4) 8) else none

/-- What is known after some entries: their lists in order, cut to the sizes of the arrays. -/
def collected (info : AcpiInfo) (ps : List ℕ) : AcpiInfo where
  lapicPhys := (ps.filterMap (overrideAt mem)).getLastD info.lapicPhys
  cpus := (info.cpus ++ ps.filterMap (cpuAt mem)).take acpiMaxCpus
  ioapics := (info.ioapics ++ ps.filterMap (ioapicAt mem)).take acpiMaxIoapics
  isos := (info.isos ++ ps.filterMap (isoAt mem)).take acpiMaxIsos

structure AcpiInfo.Bounded (info : AcpiInfo) : Prop where
  cpus : info.cpus.length ≤ acpiMaxCpus
  ioapics : info.ioapics.length ≤ acpiMaxIoapics
  isos : info.isos.length ≤ acpiMaxIsos

variable {mem} {stop fuel p : ℕ} {ps : List ℕ} {info : AcpiInfo}

theorem Entries.le (h : Entries mem stop p ps) : p ≤ stop := by
  induction h with
  | nil => exact le_rfl
  | cons _ _ _ ih => omega

theorem bounded_collected : (collected mem info ps).Bounded :=
  ⟨length_take_le .., length_take_le .., length_take_le ..⟩

theorem collected_nil (h : info.Bounded) : collected mem info [] = info := by
  simp [collected, take_of_length_le, h.cpus, h.ioapics, h.isos]

/-- A list that is cut after each step is the whole list, cut at the end. -/
theorem take_append_take {α : Type} (n : ℕ) (l l' : List α) :
    (l.take n ++ l').take n = (l ++ l').take n := by
  rw [take_append, take_append, take_take, min_self, length_take]
  congr 2
  omega

theorem collected_cons : collected mem (collected mem info [p]) ps = collected mem info (p :: ps) := by
  have hlast : (ps.filterMap (overrideAt mem)).getLastD
      (([p].filterMap (overrideAt mem)).getLastD info.lapicPhys) =
      ((p :: ps).filterMap (overrideAt mem)).getLastD info.lapicPhys := by
    cases hp : overrideAt mem p <;> simp only [filterMap_cons, hp, filterMap_nil,
      getLastD_cons, getLastD_nil]
  have hcons {α : Type} (f : ℕ → Option α) :
      [p].filterMap f ++ ps.filterMap f = (p :: ps).filterMap f :=
    filterMap_append.symm
  simp only [collected, take_append_take, append_assoc, hcons, hlast]

/-- One turn of the loop adds what its entry says, if the array has a place for it. -/
theorem madtEntry_eq_collected (h : info.Bounded) {length : ℕ}
    (hlen : entrySize (mem p).toNat ≤ length) :
    (madtEntry mem info p length).1 = collected mem info [p] := by
  have hadd {α : Type} {l : List α} {n : ℕ} (x : α) (hl : l.length ≤ n) :
      (l ++ [x]).take n = if n ≤ l.length then l else l ++ [x] := by
    split_ifs with hfull
    · rw [take_append_of_le_length hfull, take_of_length_le hl]
    · exact take_of_length_le (by simp; omega)
  have hcpus := take_of_length_le h.cpus
  have hioapics := take_of_length_le h.ioapics
  have hisos := take_of_length_le h.isos
  unfold madtEntry collected
  split <;> rename_i htype
  · have hsize : ¬length < 8 := by rw [htype] at hlen; exact not_lt.mpr hlen
    rcases Nat.mod_two_eq_zero_or_one (mem.read (p + 4) 4) with hdisabled | henabled
    · simp [overrideAt, cpuAt, ioapicAt, isoAt, htype, hsize, hdisabled, hcpus, hioapics, hisos]
    · by_cases hfull : acpiMaxCpus ≤ info.cpus.length <;>
        simp [overrideAt, cpuAt, ioapicAt, isoAt, htype, hsize, henabled, hfull, hadd _ h.cpus, hioapics,
          hisos]
  · have hsize : ¬length < 12 := by rw [htype] at hlen; exact not_lt.mpr hlen
    by_cases hfull : acpiMaxIoapics ≤ info.ioapics.length <;>
      simp [overrideAt, cpuAt, ioapicAt, isoAt, htype, hsize, hfull, hadd _ h.ioapics, hcpus, hisos]
  · have hsize : ¬length < 10 := by rw [htype] at hlen; exact not_lt.mpr hlen
    by_cases hfull : acpiMaxIsos ≤ info.isos.length <;>
      simp [overrideAt, cpuAt, ioapicAt, isoAt, htype, hsize, hfull, hadd _ h.isos, hcpus, hioapics]
  · have hsize : ¬length < 12 := by rw [htype] at hlen; exact not_lt.mpr hlen
    simp [overrideAt, cpuAt, ioapicAt, isoAt, htype, hsize, hcpus, hioapics, hisos]
  · rename_i hlapic hioapic hiso
    simp only [filterMap_cons, filterMap_nil, overrideAt, cpuAt, ioapicAt, isoAt,
      if_neg htype, if_neg hioapic, if_neg hiso, if_neg (mt And.left hlapic), append_nil, hcpus,
      hioapics, hisos]
    rfl

theorem madtLoop_eq_collected (h : Entries mem stop p ps) (hinfo : info.Bounded)
    (hfuel : stop - p < fuel) :
    ∃ reads, madtLoop mem stop fuel p info = some (collected mem info ps, reads) := by
  induction h generalizing fuel info with
  | nil =>
    obtain ⟨fuel, rfl⟩ : ∃ n, fuel = n + 1 := ⟨fuel - 1, by omega⟩
    exact ⟨[], by rw [madtLoop, if_neg (lt_irrefl _), collected_nil hinfo]⟩
  | @cons p ps htwo hsize hrest ih =>
    have hle := hrest.le
    obtain ⟨fuel, rfl⟩ : ∃ n, fuel = n + 1 := ⟨fuel - 1, by omega⟩
    obtain ⟨reads, hloop⟩ := @ih fuel (collected mem info [p]) bounded_collected (by omega)
    rw [collected_cons, ← madtEntry_eq_collected hinfo hsize] at hloop
    rw [madtLoop, if_pos (by omega), if_neg (by omega)]
    dsimp only
    rw [hloop]
    exact ⟨_, rfl⟩

/-- For every table of complete entries: the loop ends, the lists are those of the entries in their
order, cut to the sizes of the arrays, and the address is that of the last override. -/
theorem madt_is_collected {rsdp hhdm madt : ℕ}
    (hok : ∀ out, runAcpiProtocol mem rsdp hhdm fuel ⟨0, [], [], []⟩ ≠ some (false, out))
    (hfind : acpiFindTable mem (rsdp + hhdm) hhdm [65, 80, 73, 67] = some madt)
    (hentries : Entries mem (madt + sdtLength mem madt) (madt + madtSize) ps)
    (hfuel : sdtLength mem madt ≤ fuel) :
    ∃ reads, runAcpiProtocol mem rsdp hhdm fuel ⟨0, [], [], []⟩ = some (true,
      { lapicPhys := (ps.filterMap (overrideAt mem)).getLastD (mem.read (madt + sdtHeaderSize) 4)
        cpus := (ps.filterMap (cpuAt mem)).take acpiMaxCpus
        ioapics := (ps.filterMap (ioapicAt mem)).take acpiMaxIoapics
        isos := (ps.filterMap (isoAt mem)).take acpiMaxIsos }, reads) := by
  have hle := hentries.le
  have hpos : 0 < madtSize := by decide
  obtain ⟨reads, hloop⟩ := @madtLoop_eq_collected mem _ fuel _ ps
    ⟨mem.read (madt + sdtHeaderSize) 4, [], [], []⟩ hentries
    ⟨Nat.zero_le _, Nat.zero_le _, Nat.zero_le _⟩ (by omega)
  refine ⟨reads, ?_⟩
  unfold runAcpiProtocol at hok ⊢
  dsimp only at hok ⊢
  split_ifs at hok ⊢
  · exact absurd rfl (hok _)
  · rw [hfind]
    dsimp only
    rw [if_neg (by omega), hloop]
    rfl

/-- An entry of an unknown type, and an enabled processor. -/
theorem enabled_cpu_is_collected : ∃ info reads,
    runAcpiProtocol (exampleTables [7, 2, 0, 8, 0, 3, 1, 0, 0, 0]) 1 0 54 ⟨0, [], [], []⟩ =
      some (true, info, reads) ∧ info = ⟨0, [⟨3, 1⟩], [], []⟩ := by
  have hlength : sdtLength (exampleTables [7, 2, 0, 8, 0, 3, 1, 0, 0, 0]) 61 = 54 := by
    decide +kernel
  have hfirst : (runAcpiProtocol (exampleTables [7, 2, 0, 8, 0, 3, 1, 0, 0, 0]) 1 0 54
      ⟨0, [], [], []⟩).map Prod.fst = some true := by
    decide +kernel
  have hentries : Entries (exampleTables [7, 2, 0, 8, 0, 3, 1, 0, 0, 0]) (61 + 54) (61 + madtSize)
      [105, 107] :=
    .cons (by decide +kernel) (by decide +kernel) (.cons (by decide +kernel) (by decide +kernel) .nil)
  rw [← hlength] at hentries
  obtain ⟨reads, hrun⟩ := madt_is_collected
    (fun out hout => by rw [hout] at hfirst; cases hfirst) (by decide +kernel) hentries hlength.le
  exact ⟨_, reads, hrun, by decide +kernel⟩

end Taavi.X64
