import Taavi.Lib.Scan
import Taavi.X64.Acpi

/-!
# Starting the processors

`fill_cpu_struct` of `kernel/arch/x86_64/cpu/cpu.c` and the two passes of `smp_init`, where the cores
that come online in between and the outcomes of `vmm_alloc_kstack` are given.
-/

namespace Taavi.X64

open Lib List

/-- `limine_mp_info`. -/
structure MpInfo where
  processorId : ℕ
  lapicId : ℕ

/-- `core_t`, whose pointer to itself is an index of `cores`. -/
structure Core where
  self : Option ℕ
  processorId : ℕ
  lapicId : ℕ
  kstackTop : ℕ
  online : Bool

/-- `fill_cpu_struct`: the entries of `cores`, of which the loop writes one in each turn. -/
def fillCpuStruct (cpus : List MpInfo) (bspLapicId i : ℕ) : Core :=
  let core : Core :=
    if i = 0 then ⟨some 0, 0, bspLapicId % 2 ^ 8, 0, true⟩ else ⟨none, 0, 0, 0, false⟩
  match cpus[i]? with
  | none => core
  | some cpu =>
    if cpu.lapicId = bspLapicId % 2 ^ 8 then core
    else { core with self := some i, processorId := cpu.processorId, lapicId := cpu.lapicId }

/-- The loop of `ap_setup`, with the positions and the indices of `cores` for `ignite_core`. -/
structure ApSetup where
  cores : ℕ → Core
  started : List (ℕ × ℕ)
  cpuIndex : ℕ

/-- One turn of the loop, with a new stack if there is one. After the `break` turns do nothing. -/
def apTurn (cpuCount : ℕ) (s : ApSetup) (stack : Option ℕ) : ApSetup :=
  if cpuCount ≤ s.cpuIndex ∨ (s.cores s.cpuIndex).online then s
  else
    match stack with
    | none => s
    | some top =>
      { cores := assign s.cores s.cpuIndex { s.cores s.cpuIndex with kstackTop := top }
        started := s.started ++ [(s.cpuIndex, s.cpuIndex)]
        cpuIndex := s.cpuIndex + 1 }

def apSetup (cpuCount : ℕ) (cores : ℕ → Core) (tops : ℕ → Option ℕ) : ApSetup :=
  ((List.range cpuCount).map tops).foldl (apTurn cpuCount) ⟨cores, [], 1⟩

/-- A pass, with the processors that are online before it. -/
structure Pass where
  online : ℕ → Bool
  before : ℕ → Core
  after : ApSetup

/-- The structures after some cores have come online. -/
def comeOnline (awake : ℕ → Bool) (cores : ℕ → Core) (j : ℕ) : Core :=
  { cores j with online := (cores j).online || awake j }

/-- `smp_init`. Before it looks at `cpu_active_count` the cores in `awake` have come online. -/
def smpInit (cpuCount : ℕ) (cores : ℕ → Core) (tops tops' : ℕ → Option ℕ) (awake : ℕ → Bool) :
    List Pass :=
  let first := apSetup cpuCount cores tops
  let cores' := comeOnline awake first.cores
  ⟨fun _ => false, cores, first⟩ ::
    if 1 + (List.range' 1 (cpuCount - 1)).countP awake < cpuCount then
      [⟨awake, cores', apSetup cpuCount cores' tops'⟩]
    else []

section

variable {n : ℕ} {cores : ℕ → Core} {s : ApSetup} {tops : List (Option ℕ)} {pass : Pass}
  {cpus : List MpInfo}

/-- A structure has the ids of a processor. -/
def Core.IsOf (core : Core) (cpus : List MpInfo) (i : ℕ) : Prop :=
  core.self = some i ∧ cpus[i]? = some ⟨core.processorId, core.lapicId⟩

/-- Exactly the processors that are neither online nor the boot processor are started, each with a
structure of its own that has its ids. -/
structure Pass.Right (pass : Pass) (cpus : List MpInfo) (boot : ℕ) : Prop where
  all : ∀ i < cpus.length, i ≠ boot → pass.online i = false → ∃ j, (i, j) ∈ pass.after.started
  notBoot : ∀ i j, (i, j) ∈ pass.after.started → i ≠ boot
  own : ∀ i j, (i, j) ∈ pass.after.started → (pass.after.cores j).IsOf cpus i
  distinct : ∀ i i' j, (i, j) ∈ pass.after.started → (i', j) ∈ pass.after.started → i = i'
  running : ∀ j, (pass.before j).online = true →
    pass.after.cores j = pass.before j ∧ ∀ i, (i, j) ∉ pass.after.started

/-- The loop has started the cores before its index, and waits for a stack unless it is at the end or
at a core that is online. -/
structure InSetup (n : ℕ) (cores : ℕ → Core) (tops : List (Option ℕ)) (s : ApSetup) : Prop where
  pos : 0 < s.cpuIndex
  le : s.cpuIndex ≤ n
  stacks_le : s.cpuIndex ≤ 1 + tops.countP (·.isSome)
  stopped : s.cpuIndex < 1 + tops.countP (·.isSome) →
    s.cpuIndex = n ∨ (cores s.cpuIndex).online = true
  offline : ∀ j, 0 < j → j < s.cpuIndex → (cores j).online = false
  started : ∀ i j, (i, j) ∈ s.started ↔ i = j ∧ 0 < i ∧ i < s.cpuIndex
  same : ∀ j, j = 0 ∨ s.cpuIndex ≤ j → s.cores j = cores j
  kept : ∀ j, ∃ top, s.cores j = { cores j with kstackTop := top }

theorem InSetup.turn (h : InSetup n cores tops s) (stack : Option ℕ) :
    InSetup n cores (tops ++ [stack]) (apTurn n s stack) := by
  have hpos := h.pos
  have hle := h.le
  have hstacks := h.stacks_le
  have hsame := h.same s.cpuIndex (.inr le_rfl)
  have hcount : (tops ++ [stack]).countP (·.isSome) =
      tops.countP (·.isSome) + if stack.isSome then 1 else 0 := by
    cases stack <;> simp [countP_append]
  unfold apTurn
  split_ifs with hblock
  · refine { h with stacks_le := by omega, stopped := fun _ => hblock.imp hle.antisymm ?_ }
    rw [hsame]
    exact id
  · obtain ⟨hroom, hoffline⟩ := not_or.mp hblock
    cases stack with
    | none =>
      rw [Option.isSome_none, if_neg Bool.false_ne_true, add_zero] at hcount
      exact { h with stacks_le := hcount ▸ h.stacks_le, stopped := hcount ▸ h.stopped }
    | some top =>
      rw [Option.isSome_some, if_pos rfl] at hcount
      refine ⟨Nat.succ_pos _, by dsimp only; omega, by dsimp only; omega, fun hlt => ?_,
        fun j hj hlt => ?_, fun i j => ?_, fun j hj => ?_, fun j => ?_⟩ <;> dsimp only at *
      · rcases h.stopped (by omega) with hend | honline
        · omega
        · rw [hsame] at hoffline
          exact absurd honline hoffline
      · rcases Nat.lt_succ_iff_lt_or_eq.mp hlt with hlt | rfl
        · exact h.offline j hj hlt
        · rw [← hsame]
          exact Bool.eq_false_iff.mpr hoffline
      · simp only [mem_append, h.started, mem_singleton, Prod.mk.injEq]
        omega
      · rw [assign_of_ne _ _ (by omega)]
        exact h.same j (by omega)
      · by_cases hj : j = s.cpuIndex
        · rw [hj, assign_same, hsame]
          exact ⟨top, rfl⟩
        · rw [assign_of_ne _ _ hj]
          exact h.kept j

theorem inSetup_apSetup (hn : 0 < n) (tops : ℕ → Option ℕ) :
    InSetup n cores ((List.range n).map tops) (apSetup n cores tops) := by
  unfold apSetup
  generalize (List.range n).map tops = outcomes
  induction outcomes using List.reverseRecOn with
  | nil =>
    refine ⟨one_pos, hn, le_rfl, fun h => absurd h (lt_irrefl 1), fun j hj hlt => ?_,
      fun i j => ?_, fun _ _ => rfl, fun j => ⟨_, rfl⟩⟩
    · exact absurd hj (Nat.lt_one_iff.mp hlt).not_gt
    · simp only [foldl_nil, not_mem_nil, false_iff]
      omega
  | append_singleton outcomes stack ih =>
    rw [foldl_append]
    exact ih.turn stack

/-- A core is started if the ones before it are and there is a stack for each of them. -/
theorem Pass.right_iff (h : InSetup cpus.length pass.before tops pass.after)
    (honline : ∀ i, 0 < i → i < cpus.length → (pass.before i).online = pass.online i) :
    pass.Right cpus 0 ↔ ∀ j, 0 < j → j < cpus.length → pass.online j = false →
      (pass.before j).IsOf cpus j ∧ j ≤ tops.countP (·.isSome) ∧
        ∀ i, 0 < i → i < j → pass.online i = false := by
  have hle := h.le
  have hstacks := h.stacks_le
  have hoffline : ∀ i, 0 < i → i < pass.after.cpuIndex → pass.online i = false := by
    intro i hi hlt
    rw [← honline i hi (by omega)]
    exact h.offline i hi hlt
  have hisOf : ∀ i, (pass.after.cores i).IsOf cpus i ↔ (pass.before i).IsOf cpus i := by
    intro i
    obtain ⟨top, htop⟩ := h.kept i
    rw [htop]
    rfl
  constructor
  · intro hright j hj hlt hoff
    obtain ⟨k, hk⟩ := hright.all j hlt (by omega) hoff
    obtain ⟨rfl, -, hreach⟩ := (h.started j k).mp hk
    exact ⟨(hisOf j).mp (hright.own j j hk), by omega, fun i hi hij => hoffline i hi (by omega)⟩
  · intro hcond
    refine ⟨fun i hi hne hoff => ⟨i, (h.started i i).mpr ⟨rfl, by omega, ?_⟩⟩, fun i j hij => ?_,
      fun i j hij => ?_, fun i i' j hij hij' => ?_, fun j hj => ?_⟩
    · obtain ⟨-, htops, hpre⟩ := hcond i (by omega) hi hoff
      by_contra hge
      -- the loop would have stopped at a core that is online
      have hstop := (h.stopped (by omega)).resolve_left (by omega)
      rw [honline _ h.pos (by omega)] at hstop
      rcases Nat.lt_or_eq_of_le (Nat.le_of_not_lt hge) with hlt | heq
      · exact absurd hstop (by rw [hpre _ h.pos hlt]; decide)
      · exact absurd hstop (by rw [heq, hoff]; decide)
    · have := (h.started i j).mp hij
      omega
    · obtain ⟨rfl, hpos, hlt⟩ := (h.started i j).mp hij
      exact (hisOf i).mpr (hcond i hpos (by omega) (hoffline i hpos hlt)).1
    · rw [((h.started i j).mp hij).1, ((h.started i' j).mp hij').1]
    · have hout : j = 0 ∨ pass.after.cpuIndex ≤ j := by
        by_contra hinside
        rw [h.offline j (by omega) (by omega)] at hj
        cases hj
      refine ⟨h.same j hout, fun i hij => ?_⟩
      have := (h.started i j).mp hij
      omega

end

variable {cpus : List MpInfo} {boot : ℕ} {cpu : MpInfo} {tops tops' : ℕ → Option ℕ}
  {awake : ℕ → Bool}

theorem isOf_fillCpuStruct_iff {j : ℕ} (hj : 0 < j) (hlt : j < cpus.length) (bsp : ℕ) :
    (fillCpuStruct cpus bsp j).online = false ∧
      ((fillCpuStruct cpus bsp j).IsOf cpus j ↔ cpus[j].lapicId ≠ bsp % 2 ^ 8) := by
  have hget : cpus[j]? = some cpus[j] := List.getElem?_eq_getElem hlt
  unfold Core.IsOf fillCpuStruct
  simp only [hget, if_neg hj.ne']
  split_ifs with hid
  · exact ⟨rfl, by simp [hid]⟩
  · exact ⟨rfl, by simpa using hid⟩

/-- The number of outcomes that are a stack. -/
def stackCount (n : ℕ) (tops : ℕ → Option ℕ) : ℕ := ((List.range n).map tops).countP (·.isSome)

/-- Both passes are right if and only if the boot processor is the first one, no other one has its id
in eight bits, there are stacks enough, and before the second pass no core is online that stands
before one that is not. -/
theorem smp_starts_all_iff (hmax : cpus.length ≤ acpiMaxCpus) (hboot : cpus[boot]? = some cpu) :
    (∀ pass ∈ smpInit (cpus.length % 2 ^ 8) (fillCpuStruct cpus cpu.lapicId) tops tops' awake,
      pass.Right cpus boot) ↔
    boot = 0 ∧ ∀ j (hlt : j < cpus.length), 0 < j →
      cpus[j].lapicId ≠ cpu.lapicId % 2 ^ 8 ∧ j ≤ stackCount cpus.length tops ∧
      (awake j = false → j ≤ stackCount cpus.length tops' ∧
        ∀ i, 0 < i → i < j → awake i = false) := by
  have hpos : 0 < cpus.length := Nat.zero_lt_of_lt (List.getElem?_eq_some_iff.mp hboot).1
  have hcount : cpus.length % 2 ^ 8 = cpus.length := Nat.mod_eq_of_lt (hmax.trans_lt (by decide))
  have hfilled {j : ℕ} (hj : 0 < j) (hlt : j < cpus.length) :=
    isOf_fillCpuStruct_iff hj hlt cpu.lapicId
  simp only [hcount, smpInit, mem_cons, forall_eq_or_imp]
  generalize fillCpuStruct cpus cpu.lapicId = cores at hfilled
  have hreached : InSetup cpus.length cores _ (apSetup cpus.length cores tops) :=
    inSetup_apSetup hpos tops
  generalize apSetup cpus.length cores tops = first at hreached
  have hfirst : (Pass.mk (fun _ => false) cores first).Right cpus 0 ↔ _ :=
    Pass.right_iff hreached fun i hi hlt => (hfilled hi hlt).1
  have hreached' := @inSetup_apSetup _ (comeOnline awake first.cores) hpos tops'
  generalize apSetup cpus.length (comeOnline awake first.cores) tops' = second at hreached'
  have hawake : ∀ i, 0 < i → i < cpus.length →
      (comeOnline awake first.cores i).online = awake i := by
    intro i hi hlt
    obtain ⟨top, htop⟩ := hreached.kept i
    rw [comeOnline, htop, (hfilled hi hlt).1, Bool.false_or]
  have hsecond : (Pass.mk awake (comeOnline awake first.cores) second).Right cpus 0 ↔ _ :=
    Pass.right_iff hreached' hawake
  constructor
  · rintro ⟨hright, hpasses⟩
    obtain rfl : boot = 0 := by
      by_contra hne
      obtain ⟨j, hj⟩ := hright.all 0 hpos (Ne.symm hne) rfl
      exact absurd ((hreached.started 0 j).mp hj).2.1 (lt_irrefl 0)
    have hcond := hfirst.mp hright
    refine ⟨rfl, fun j hlt hj => ⟨(hfilled hj hlt).2.mp (hcond j hj hlt rfl).1,
      (hcond j hj hlt rfl).2.1, fun hoff => ?_⟩⟩
    -- a core that is not online leads to the second pass
    have hless : (List.range' 1 (cpus.length - 1)).countP awake <
        (List.range' 1 (cpus.length - 1)).length :=
      countP_lt_length_iff.mpr ⟨j, mem_range'_1.mpr (by omega), by simp [hoff]⟩
    rw [length_range'] at hless
    rw [if_pos (by omega)] at hpasses
    exact (hsecond.mp (hpasses _ (mem_singleton_self _)) j hj hlt hoff).2
  · rintro ⟨rfl, hcond⟩
    refine ⟨hfirst.mpr fun j hj hlt _ => ⟨(hfilled hj hlt).2.mpr (hcond j hlt hj).1,
      (hcond j hlt hj).2.1, fun _ _ _ => rfl⟩, fun pass hmem => ?_⟩
    split_ifs at hmem
    · rw [mem_singleton.mp hmem]
      refine hsecond.mpr fun j hj hlt hoff => ⟨?_, (hcond j hlt hj).2.2 hoff⟩
      obtain ⟨top, htop⟩ := hreached.kept j
      dsimp only [comeOnline]
      rw [htop]
      exact (hfilled hj hlt).2.mpr (hcond j hlt hj).1
    · cases hmem

/-- Three processors of which the first is the boot processor. -/
def threeCpus : List MpInfo := [⟨0, 0⟩, ⟨1, 1⟩, ⟨2, 2⟩]

theorem silent_cores_are_started : threeCpus[0]? = some ⟨0, 0⟩ ∧
    ∀ pass ∈ smpInit (threeCpus.length % 2 ^ 8) (fillCpuStruct threeCpus 0) (fun _ => some 1)
      (fun _ => some 1) fun _ => false, pass.Right threeCpus 0 := by
  refine ⟨rfl, (@smp_starts_all_iff threeCpus 0 _ _ _ _ (by decide) rfl).mpr
    ⟨rfl, fun j hlt hj => ?_⟩⟩
  have hcount : stackCount threeCpus.length (fun _ => some 1) = 3 := by decide
  have hthree : threeCpus.length = 3 := rfl
  refine ⟨?_, by omega, fun _ => ⟨by omega, fun _ _ _ => rfl⟩⟩
  obtain rfl | rfl : j = 1 ∨ j = 2 := by omega
  · exact one_ne_zero
  · exact two_ne_zero

/-- The second pass stops at the second core, which has come online, before the third one. -/
theorem core_after_online_one_is_not_started :
    ∃ pass ∈ smpInit 3 (fillCpuStruct threeCpus 0) (fun _ => some 1) (fun _ => some 1) (· == 1),
      ¬pass.Right threeCpus 0 := by
  refine ⟨_, mem_cons_of_mem _ (mem_singleton_self _), fun hright => ?_⟩
  obtain ⟨j, hj⟩ := hright.all 2 (by decide) (by decide) rfl
  exact absurd hj not_mem_nil

end Taavi.X64
