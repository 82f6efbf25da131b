import Taavi.X64.Entries

/-!
# The tables of the directories on the x86_64

The directories are a tree of depth three that shares the kernel half. An entry for a table lets
through what an entry below it grants, and every change of a word keeps that.
-/

namespace Taavi.X64

open Lib
open Paging (Machine pagePresent pageRw pageUser)

variable {α : Type*} {roots : ℕ → Prop} {s : Machine α} {dir table i entry : ℕ} {path : List ℕ}

def KernelIndex (i : ℕ) : Prop := kernelPdIndexStart ≤ i

instance : DecidablePred KernelIndex := fun i => inferInstanceAs (Decidable (kernelPdIndexStart ≤ i))

structure Tables (roots : ℕ → Prop) (s : Machine α) : Prop where
  tree : TableTree tableOf 3 roots KernelIndex s.mem
  kernel : roots s.kernelPageDir
  upper : ∀ dir, roots dir → ∀ i, KernelIndex i → s.mem dir i = s.mem s.kernelPageDir i
  filled : ∀ i, KernelIndex i → i < entriesPerTable → tableOf (s.mem s.kernelPageDir i) ≠ none
  inner : ∀ table i, Reached tableOf 1 roots s.mem table → (s.mem table i).testBit 0 = true →
    (s.mem table i).testBit 7 = false
  writable : ∀ table i next, Reached tableOf 2 roots s.mem table →
    tableOf (s.mem table i) = some next → (s.mem table i).testBit 1 = true
  user : ∀ table i next j, Reached tableOf 2 roots s.mem table →
    tableOf (s.mem table i) = some next → (s.mem next j).testBit 2 = true →
    (s.mem table i).testBit 2 = true

/-- The path is in the lower half, and its last entry lets the user through. -/
structure UserPath (mem : ℕ → ℕ → ℕ) (dir : ℕ) (path : List ℕ) : Prop where
  lower : ∀ i rest, path = i :: rest → ¬KernelIndex i
  last : ∀ init i table, path = init ++ [i] → walk tableOf mem dir init = some table →
    (mem table i).testBit 2 = true

structure Fits (level i old entry : ℕ) : Prop where
  same : tableOf entry = tableOf old ∨ 3 ≤ level
  inner : level ≤ 1 → entry.testBit 0 = true → entry.testBit 7 = false
  writable : level ≤ 2 → tableOf entry ≠ none → entry.testBit 1 = true
  user : level ≤ 2 → tableOf entry ≠ none → old.testBit 2 = true → entry.testBit 2 = true
  root : level = 0 → KernelIndex i → entry = old

theorem length_le_of_reached (htree : TableTree tableOf 3 roots KernelIndex s.mem)
    (hdir : roots dir) (hlen : path.length ≤ 3) (hwalk : walk tableOf s.mem dir path = some table)
    {depth : ℕ} (hdepth : depth ≤ 3) (hreach : Reached tableOf depth roots s.mem table) :
    path.length ≤ depth := by
  obtain ⟨root, path', hroot, hlen', hwalk'⟩ := hreach
  rw [← htree.walk_eq_some hdir hroot hlen (by omega) hwalk hwalk']
  exact hlen'

theorem next_ne (htree : TableTree tableOf 3 roots KernelIndex s.mem) (hdir : roots dir)
    (hlen : path.length ≤ 2) (hwalk : walk tableOf s.mem dir path = some table) {next : ℕ}
    (hnext : tableOf (s.mem table i) = some next) : next ≠ table := by
  rintro rfl
  have hagain : walk tableOf s.mem dir (path ++ [i]) = some next := by
    rw [walk_concat, hwalk, Option.bind_some, hnext]
  have hpath := htree.walk_eq_some hdir hdir (by omega) (by simp; omega) hwalk hagain
  simpa using congrArg List.length hpath

theorem UserPath.parent (huser : UserPath s.mem dir path)
    (htree : TableTree tableOf 3 roots KernelIndex s.mem) (hdir : roots dir)
    (hlen : path.length ≤ 3) (hwalk : walk tableOf s.mem dir path = some table)
    {parent j : ℕ} (hreach : Reached tableOf 2 roots s.mem parent)
    (hnames : tableOf (s.mem parent j) = some table) : (s.mem parent j).testBit 2 = true := by
  obtain ⟨root, init, hroot, hinit, hpar⟩ := hreach
  have hwalk' : walk tableOf s.mem root (init ++ [j]) = some table := by
    rw [walk_concat, hpar, Option.bind_some, hnames]
  obtain ⟨hpath, hroots⟩ := htree hdir hroot hlen (by simp; omega) hwalk hwalk'
  rcases hroots with rfl | ⟨k, rest, hk, hshare⟩
  · exact huser.last init j parent hpath hpar
  · exact absurd hshare (huser.lower k rest hk)

/-- What the tables need of a word at a depth. -/
def Sound (mem : ℕ → ℕ → ℕ) (depth entry : ℕ) : Prop :=
  (depth ≤ 1 → entry.testBit 0 = true → entry.testBit 7 = false) ∧
    ∀ next, tableOf entry = some next → entry.testBit 1 = true ∧
      ∀ k, (mem next k).testBit 2 = true → entry.testBit 2 = true

theorem sound_zero (mem : ℕ → ℕ → ℕ) (depth : ℕ) : Sound mem depth 0 :=
  ⟨fun _ _ => rfl, fun _ h => by simp at h⟩

theorem Sound.congr {mem mem' : ℕ → ℕ → ℕ} {depth : ℕ} (h : Sound mem depth entry)
    (hnext : ∀ next k, tableOf entry = some next → (mem' next k).testBit 2 = true →
      (mem next k).testBit 2 = true ∨ entry.testBit 2 = true) : Sound mem' depth entry := by
  refine ⟨h.1, fun next hname => ⟨(h.2 next hname).1, fun k hbit => ?_⟩⟩
  rcases hnext next k hname hbit with hold | hset
  · exact (h.2 next hname).2 k hold
  · exact hset

theorem Tables.sound (h : Tables roots s) {depth g j : ℕ} (hdepth : depth ≤ 2)
    (hreach : Reached tableOf depth roots s.mem g) : Sound s.mem depth (s.mem g j) :=
  ⟨fun hone => h.inner g j (hreach.mono hone), fun next hnext =>
    ⟨h.writable g j next (hreach.mono hdepth) hnext, fun k =>
      h.user g j next k (hreach.mono hdepth) hnext⟩⟩

theorem Tables.of_sound (h : Tables roots s) {roots' : ℕ → Prop} {t : Machine α}
    (htree : TableTree tableOf 3 roots' KernelIndex t.mem) (hker : roots' t.kernelPageDir)
    (hroot : ∀ root, roots' root → ∀ j, KernelIndex j → t.mem root j = s.mem s.kernelPageDir j)
    (hwords : ∀ depth ≤ 2, ∀ g j, Reached tableOf depth roots' t.mem g →
      Sound t.mem depth (t.mem g j)) : Tables roots' t where
  tree := htree
  kernel := hker
  upper root hr j hj := (hroot root hr j hj).trans (hroot _ hker j hj).symm
  filled j hj hlt := by
    rw [hroot _ hker j hj]
    exact h.filled j hj hlt
  inner g j hreach := (hwords 1 (by omega) g j hreach).1 le_rfl
  writable g j next hreach hnext := ((hwords 2 le_rfl g j hreach).2 next hnext).1
  user g j next k hreach hnext := ((hwords 2 le_rfl g j hreach).2 next hnext).2 k

theorem Tables.store (h : Tables roots s) (hdir : roots dir) (hlen : path.length ≤ 3)
    (hwalk : walk tableOf s.mem dir path = some table)
    (hfits : Fits path.length i (s.mem table i) entry)
    (huser : entry.testBit 2 = true → UserPath s.mem dir path) :
    Tables roots { s with mem := storeWord s.mem table i entry } := by
  have hreach : ∀ {depth g}, depth ≤ 3 →
      Reached tableOf depth roots (storeWord s.mem table i entry) g →
      Reached tableOf depth roots s.mem g := fun hdepth hreached =>
    (reached_congr fun root path' hroot hlen' =>
      walk_storeWord h.tree hdir hlen hwalk hfits.same hroot (by omega)).mp hreached
  have hat : ∀ {depth}, depth ≤ 3 → Reached tableOf depth roots s.mem table →
      path.length ≤ depth := fun hdepth hreached =>
    length_le_of_reached h.tree hdir hlen hwalk hdepth hreached
  refine h.of_sound (h.tree.storeWord hdir hlen hwalk hfits.same) h.kernel ?_ ?_
  · -- the kernel half of a directory is not touched
    intro root hr j hj
    rw [← h.upper root hr j hj]
    show storeWord s.mem table i entry root j = s.mem root j
    rw [storeWord_apply]
    split
    · rename_i hhere
      obtain ⟨rfl, rfl⟩ := hhere
      have hzero := hat (Nat.zero_le 3) ⟨root, [], hr, le_refl 0, rfl⟩
      exact hfits.root (by omega) hj
    · rfl
  · intro depth hdepth g j hreached
    replace hreached := hreach (by omega) hreached
    show Sound (storeWord s.mem table i entry) depth (storeWord s.mem table i entry g j)
    by_cases hhere : g = table ∧ j = i
    · obtain ⟨rfl, rfl⟩ := hhere
      have hlevel := hat (by omega) hreached
      rw [storeWord_apply, if_pos ⟨rfl, rfl⟩]
      refine ⟨fun hone => hfits.inner (by omega), fun next hnext =>
        ⟨hfits.writable (by omega) (by simp [hnext]), fun k hbit => ?_⟩⟩
      have hold : tableOf (s.mem g j) = some next := by
        rcases hfits.same with hsame | hlast
        · rw [← hsame, hnext]
        · omega
      have hne := next_ne h.tree hdir (by omega) hwalk hold
      rw [storeWord_apply, if_neg (fun hhere => hne hhere.1)] at hbit
      exact hfits.user (by omega) (by simp [hnext])
        (h.user g j next k (hreached.mono hdepth) hold hbit)
    · rw [storeWord_apply, if_neg hhere]
      refine (h.sound hdepth hreached).congr fun next k hnext hbit => ?_
      rw [storeWord_apply] at hbit
      split at hbit
      · rename_i hthere
        obtain ⟨rfl, rfl⟩ := hthere
        exact .inr ((huser hbit).parent h.tree hdir hlen hwalk (hreached.mono hdepth) hnext)
      · exact .inl hbit

section

variable {frame : ℕ}

theorem Tables.install (h : Tables roots s) (hdir : roots dir) (hlen : path.length ≤ 2)
    (hwalk : walk tableOf s.mem dir path = some table)
    (hfresh : ¬Reached tableOf 3 roots s.mem frame) (hi : i < entriesPerTable)
    (hvac : (s.mem table i).testBit 0 = false) (hentry : tableOf entry = some frame)
    (hwritable : entry.testBit 1 = true)
    (huser : entry.testBit 2 = true → UserPath s.mem dir path) (pmm : α) :
    Tables roots { s with mem := install s.mem table i frame 0 entry, pmm } := by
  have hnone := tableOf_of_absent hvac
  have hframe : frame ≠ table := 
    (Reached.ne ⟨dir, path, hdir, by omega, hwalk⟩ hfresh).symm
  have hreach : ∀ {depth g}, depth ≤ 3 →
      Reached tableOf depth roots (Lib.install s.mem table i frame 0 entry) g →
      g = frame ∨ Reached tableOf depth roots s.mem g := by
    rintro depth g hdepth ⟨root, path', hroot, hlen', hwalk'⟩
    rw [walk_install h.tree hdir (by omega) hwalk hfresh tableOf_zero hnone hentry hroot
      (by omega)] at hwalk'
    split at hwalk'
    · exact .inl (Option.some.inj hwalk').symm
    · exact .inr ⟨root, path', hroot, hlen', hwalk'⟩
  -- what the words of the reached tables are
  have hblank : ∀ j, Lib.install s.mem table i frame 0 entry frame j = 0 := by
    intro j
    rw [install_apply, if_neg (fun hhere => hframe hhere.1), if_pos rfl]
  have hword : ∀ g j, Reached tableOf 3 roots s.mem g →
      g = table ∧ j = i ∧ Lib.install s.mem table i frame 0 entry g j = entry ∨
        ¬(g = table ∧ j = i) ∧ Lib.install s.mem table i frame 0 entry g j = s.mem g j := by
    intro g j hg
    rw [install_apply, if_neg (hg.ne hfresh)]
    by_cases hhere : g = table ∧ j = i
    · exact .inl ⟨hhere.1, hhere.2, if_pos hhere⟩
    · exact .inr ⟨hhere, if_neg hhere⟩
  refine h.of_sound (h.tree.install hdir (by omega) hwalk hfresh tableOf_zero hnone hentry) h.kernel
    ?_ ?_
  · intro root hr j hj
    rcases hword root j (reached_root hr) with ⟨rfl, rfl, -⟩ | ⟨-, hsame⟩
    · rw [h.upper root hr j hj] at hnone
      exact absurd hnone (h.filled j hj hi)
    · exact hsame.trans (h.upper root hr j hj)
  · intro depth hdepth g j hreached
    show Sound (Lib.install s.mem table i frame 0 entry) depth
      (Lib.install s.mem table i frame 0 entry g j)
    rcases hreach (by omega) hreached with rfl | hg
    · rw [hblank]
      exact sound_zero _ depth
    · rcases hword g j (hg.mono (by omega)) with ⟨-, -, hsame⟩ | ⟨-, hsame⟩
      · -- the new table is empty
        rw [hsame]
        refine ⟨fun _ _ => (tableOf_eq_some.mp hentry).2.1, fun next hnext =>
          ⟨hwritable, fun k hbit => ?_⟩⟩
        cases hentry.symm.trans hnext
        simp [hblank] at hbit
      · rw [hsame]
        refine (h.sound hdepth hg).congr fun next k hnext hbit => ?_
        rcases hword next k ((hg.next hnext).mono (by omega)) with ⟨rfl, rfl, hentry'⟩ | ⟨-, hold⟩
        · rw [hentry'] at hbit
          exact .inr ((huser hbit).parent h.tree hdir (by omega) hwalk (hg.mono hdepth) hnext)
        · rw [hold] at hbit
          exact .inl hbit

end

variable {frame : ℕ}

theorem Tables.sound_assign (h : Tables roots s) (hfresh : ¬Reached tableOf 3 roots s.mem frame)
    (content : ℕ → ℕ) {depth g j : ℕ} (hdepth : depth ≤ 2)
    (hreach : Reached tableOf depth roots s.mem g) :
    Sound (assign s.mem frame content) depth (s.mem g j) := by
  refine (h.sound hdepth hreach).congr fun next k hnext hbit => ?_
  have hne : next ≠ frame := ((hreach.next hnext).mono (by omega)).ne hfresh
  rw [assign_of_ne _ _ hne] at hbit
  exact .inl hbit

theorem Tables.newDirectory (h : Tables roots s) (hfresh : ¬Reached tableOf 3 roots s.mem frame)
    (pmm : α) : Tables (fun d => d = frame ∨ roots d)
      { s with mem := assign s.mem frame (directoryContent s), pmm } := by
  have hshare : ∀ i, KernelIndex i → directoryContent s i = s.mem s.kernelPageDir i :=
    fun i hi => if_pos hi
  have hprivate : ∀ i, ¬KernelIndex i → directoryContent s i = 0 := fun i hi => if_neg hi
  have hempty : ∀ i, ¬KernelIndex i → tableOf (directoryContent s i) = none := by
    intro i hi
    rw [hprivate i hi, tableOf_zero]
  refine h.of_sound (h.tree.newRoot h.kernel hfresh hshare hempty) (.inr h.kernel) ?_ ?_
  · rintro root (rfl | hr) i hi
    · exact (congrFun (assign_same ..) i).trans (hshare i hi)
    · have hne := (reached_root hr).ne hfresh
      exact (congrFun (assign_of_ne _ _ hne) i).trans (h.upper root hr i hi)
  · intro depth hdepth g i hreach
    show Sound (assign s.mem frame (directoryContent s)) depth
      (assign s.mem frame (directoryContent s) g i)
    have hfresh' : ¬Reached tableOf depth roots s.mem frame := fun hf => hfresh (hf.mono (by omega))
    rcases reached_newRoot h.kernel hfresh' hshare hempty hreach with rfl | hold
    · -- an entry of the new directory is one of the kernel's, or empty
      rw [assign_same]
      by_cases hi : KernelIndex i
      · rw [hshare i hi]
        exact h.sound_assign hfresh _ hdepth (reached_root h.kernel)
      · rw [hprivate i hi]
        exact sound_zero _ depth
    · rw [assign_of_ne _ _ (hold.ne hfresh')]
      exact h.sound_assign hfresh _ hdepth hold

end Taavi.X64
