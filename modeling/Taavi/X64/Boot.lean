import Taavi.X64.Descent

/-!
# The kernel half at boot

`paging_init` first gives every entry of the kernel half an empty table. The directory then has the
shape that all later calls keep, and no page.
-/

namespace Taavi.X64

open Lib
open Paging (Machine pagePresent pageRw pageUser)

variable {α : Type*} {alloc : α → ℕ × α} {s t : Machine α} {i : ℕ}

def KernelOnly (s : Machine α) (dir : ℕ) : Prop := dir = s.kernelPageDir

/-- The loop has given the entries of the kernel half up to `i` an empty table. -/
structure Filling (s : Machine α) (i : ℕ) : Prop where
  tree : TableTree tableOf 3 (KernelOnly s) KernelIndex s.mem
  blank : ∀ j next, tableOf (s.mem s.kernelPageDir j) = some next → ∀ k, s.mem next k = 0
  entry : ∀ j, s.mem s.kernelPageDir j = 0 ∨
    tableOf (s.mem s.kernelPageDir j) ≠ none ∧ (s.mem s.kernelPageDir j).testBit 1 = true
  filled : ∀ j, KernelIndex j → j < i → tableOf (s.mem s.kernelPageDir j) ≠ none
  rest : ∀ j, i ≤ j → s.mem s.kernelPageDir j = 0

theorem Filling.walk_cases (h : Filling s i) {path : List ℕ} {g : ℕ}
    (hwalk : walk tableOf s.mem s.kernelPageDir path = some g) :
    path = [] ∧ g = s.kernelPageDir ∨
      ∃ j, path = [j] ∧ tableOf (s.mem s.kernelPageDir j) = some g := by
  match path with
  | [] => exact .inl ⟨rfl, (Option.some.inj hwalk).symm⟩
  | [j] =>
    rw [walk_cons] at hwalk
    obtain ⟨next, hnext, hlast⟩ := Option.bind_eq_some_iff.mp hwalk
    cases hlast
    exact .inr ⟨j, rfl, hnext⟩
  | j :: k :: rest =>
    rw [walk_cons] at hwalk
    obtain ⟨next, hnext, hlast⟩ := Option.bind_eq_some_iff.mp hwalk
    rw [walk_cons, h.blank j next hnext k, tableOf_zero] at hlast
    cases hlast

theorem Filling.reached_cases (h : Filling s i) {depth g : ℕ}
    (hreach : Reached tableOf depth (KernelOnly s) s.mem g) :
    g = s.kernelPageDir ∨ ∀ k, s.mem g k = 0 := by
  obtain ⟨root, path, rfl, -, hwalk⟩ := hreach
  rcases h.walk_cases hwalk with ⟨-, hg⟩ | ⟨j, -, hnext⟩
  · exact .inl hg
  · exact .inr (h.blank j g hnext)

theorem Filling.install (h : Filling s i) {frame entry : ℕ}
    (hfresh : ¬Reached tableOf 3 (KernelOnly s) s.mem frame) (hentry : tableOf entry = some frame)
    (hwritable : entry.testBit 1 = true) (pmm : α) :
    Filling { s with mem := install s.mem s.kernelPageDir i frame 0 entry, pmm } (i + 1) := by
  have hroot : KernelOnly s s.kernelPageDir := rfl
  have hlen : ([] : List ℕ).length ≤ 3 := Nat.zero_le 3
  have hvac : tableOf (s.mem s.kernelPageDir i) = none := by
    rw [h.rest i (le_refl i), tableOf_zero]
  have hne := (reached_root hroot).ne hfresh
  have hword : ∀ j, Lib.install s.mem s.kernelPageDir i frame 0 entry s.kernelPageDir j =
      if j = i then entry else s.mem s.kernelPageDir j := by
    intro j
    rw [install_apply, if_neg hne]
    simp
  constructor
  case tree =>
    exact h.tree.install hroot hlen rfl hfresh tableOf_zero hvac hentry
  case blank =>
    intro j next hnext k
    dsimp only at hnext ⊢
    rw [hword] at hnext
    rw [install_apply]
    split at hnext
    · obtain rfl : frame = next := Option.some.inj (hentry.symm.trans hnext)
      rw [if_neg (fun hhere => hne hhere.1.symm), if_pos rfl]
    · have hwalk : walk tableOf s.mem s.kernelPageDir [j] = some next := by
        rw [walk_cons, hnext]
        rfl
      have hself : next ≠ s.kernelPageDir := by
        rintro rfl
        simpa using h.tree.walk_eq_some hroot hroot hlen (by simp) rfl hwalk
      have hold : next ≠ frame := Reached.ne ⟨_, [j], hroot, by simp, hwalk⟩ hfresh
      rw [if_neg (fun hhere => hself hhere.1), if_neg hold]
      exact h.blank j next hnext k
  case entry =>
    intro j
    dsimp only
    rw [hword]
    split
    · exact .inr ⟨by simp [hentry], hwritable⟩
    · exact h.entry j
  case filled =>
    intro j hj hlt
    dsimp only
    rw [hword]
    split
    · simp [hentry]
    · exact h.filled j hj (by omega)
  case rest =>
    intro j hj
    dsimp only
    rw [hword, if_neg (by omega)]
    exact h.rest j (by omega)

theorem Filling.fillKernelHalf {left : ℕ} (h : Filling s i)
    (hfresh : FreshAnswers alloc left s.pmm (Reached tableOf 3 (KernelOnly s) s.mem))
    (hdone : fillKernelHalf alloc left i s = (t, true)) :
    Filling t (i + left) ∧ t.kernelPageDir = s.kernelPageDir := by
  induction left generalizing s i with
  | zero =>
    obtain ⟨rfl, -⟩ := Prod.mk.inj hdone
    exact ⟨h, rfl⟩
  | succ left ih =>
    simp only [X64.fillKernelHalf] at hdone
    split at hdone
    · cases hdone
    · rename_i hne
      obtain ⟨⟨halign, hlt, hunused⟩, hmore⟩ := hfresh.resolve_left hne
      have hor : (alloc s.pmm).1 ||| pagePresent ||| pageRw = (alloc s.pmm).1 ||| 3 :=
        Nat.or_assoc ..
      rw [hor] at hdone
      obtain ⟨hentry, hwritable, -⟩ := newEntry_bits halign hlt (.inr rfl)
      have hnext := h.install hunused hentry hwritable (alloc s.pmm).2
      have hvac : tableOf (s.mem s.kernelPageDir i) = none := by
        rw [h.rest i (le_refl i), tableOf_zero]
      have hlen : ([] : List ℕ).length ≤ 3 := Nat.zero_le 3
      have hlast := ih hnext (hmore.mono fun f hf =>
        reached_install h.tree rfl hlen rfl hunused tableOf_zero hvac hentry hf) hdone
      rwa [add_right_comm, add_assoc] at hlast

theorem Filling.tables (h : Filling s entriesPerTable) : Tables (KernelOnly s) s := by
  have hdir : ∀ table i next, Reached tableOf 2 (KernelOnly s) s.mem table →
      tableOf (s.mem table i) = some next → table = s.kernelPageDir := by
    intro table i next hreach hnext
    rcases h.reached_cases hreach with rfl | hzero
    · rfl
    · rw [hzero, tableOf_zero] at hnext
      cases hnext
  constructor
  case tree => exact h.tree
  case kernel => rfl
  case upper =>
    rintro dir rfl i -
    rfl
  case filled => exact h.filled
  case inner =>
    intro table i hreach hpres
    rcases h.reached_cases hreach with rfl | hzero
    · rcases h.entry i with hzero | ⟨htable, -⟩
      · rw [hzero] at hpres
        simp at hpres
      · obtain ⟨next, hnext⟩ := Option.ne_none_iff_exists'.mp htable
        exact (tableOf_eq_some.mp hnext).2.1
    · rw [hzero, Nat.zero_testBit]
  case writable =>
    intro table i next hreach hnext
    obtain rfl := hdir table i next hreach hnext
    rcases h.entry i with hzero | ⟨-, hwritable⟩
    · rw [hzero, tableOf_zero] at hnext
      cases hnext
    · exact hwritable
  case user =>
    intro table i next j hreach hnext hbit
    obtain rfl := hdir table i next hreach hnext
    rw [h.blank i next hnext j, Nat.zero_testBit] at hbit
    cases hbit

theorem Filling.leafOf_eq (h : Filling s i) (virt : ℕ) :
    leafOf s.mem s.kernelPageDir virt = none := by
  have hnone : ∀ path : List ℕ, 2 ≤ path.length →
      walk tableOf s.mem s.kernelPageDir path = none := by
    intro path hlen
    cases hwalk : walk tableOf s.mem s.kernelPageDir path with
    | none => rfl
    | some g =>
      rcases h.walk_cases hwalk with ⟨rfl, -⟩ | ⟨j, rfl, -⟩ <;> simp at hlen
  unfold leafOf lookup
  rw [hnone _ (by simp), hnone _ (by simp)]
  rfl

theorem filling_of_initKernelHalf
    (hfresh : FreshAnswers alloc (entriesPerTable - kernelPdIndexStart) s.pmm
      (fun frame => frame = s.kernelPageDir))
    (hdone : initKernelHalf alloc s = (t, true)) :
    Filling t entriesPerTable ∧ t.kernelPageDir = s.kernelPageDir := by
  have hempty : ∀ root i, root = s.kernelPageDir →
      tableOf (assign s.mem s.kernelPageDir (fun _ => 0) root i) = none := by
    rintro root i rfl
    rw [assign_same, tableOf_zero]
  have hstart : Filling { s with mem := assign s.mem s.kernelPageDir fun _ => 0 }
      kernelPdIndexStart := by
    constructor
    case tree => exact TableTree.of_empty hempty
    case blank =>
      intro j next hnext
      dsimp only at hnext
      rw [hempty _ j rfl] at hnext
      cases hnext
    case entry =>
      intro j
      left
      dsimp only
      rw [assign_same]
    case filled =>
      intro j hj hlt
      exact absurd hj (Nat.not_le.mpr hlt)
    case rest =>
      intro j _
      dsimp only
      rw [assign_same]
  exact hstart.fillKernelHalf (hfresh.mono fun f hf => roots_of_empty hempty hf) hdone

end Taavi.X64
