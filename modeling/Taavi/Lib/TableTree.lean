import Mathlib.Data.List.Basic
import Taavi.Lib.Scan

/-!
# Trees of tables in a memory of frames

Tables are frames whose entries name further tables, and roots may share tables. Frames that are no
tables do not matter, a new table maps nothing, an entry is met on one path only, and a new root
sees what it takes over.
-/

namespace Lib

open List Option

variable {ε β : Type*}

/-- Replace one entry of a frame. -/
def storeWord (mem : ℕ → ℕ → ε) (frame i : ℕ) (word : ε) : ℕ → ℕ → ε :=
  assign mem frame (assign (mem frame) i word)

theorem storeWord_apply (mem : ℕ → ℕ → ε) (frame i : ℕ) (word : ε) (f j : ℕ) :
    storeWord mem frame i word f j = if f = frame ∧ j = i then word else mem f j := by
  unfold storeWord
  rw [assign_apply]
  split
  · rename_i hframe
    rw [assign_apply, hframe]
    simp
  · rename_i hframe
    simp [hframe]

@[simp] theorem storeWord_same (mem : ℕ → ℕ → ε) (frame i : ℕ) (word : ε) :
    storeWord mem frame i word frame i = word := by
  simp [storeWord_apply]

theorem storeWord_of_ne (mem : ℕ → ℕ → ε) {frame f : ℕ} (i : ℕ) (word : ε) (j : ℕ)
    (hframe : f ≠ frame) : storeWord mem frame i word f j = mem f j := by
  simp [storeWord_apply, hframe]

/-- The table that a path of indices leads to, where `child` reads an entry. -/
def walk (child : ε → Option ℕ) (mem : ℕ → ℕ → ε) : ℕ → List ℕ → Option ℕ
  | frame, [] => some frame
  | frame, i :: path => (child (mem frame i)).bind fun table => walk child mem table path

/-- What the entry `j` of the table on a path stands for. -/
def lookup (child : ε → Option ℕ) (leaf : ε → Option β) (mem : ℕ → ℕ → ε) (root : ℕ)
    (path : List ℕ) (j : ℕ) : Option β :=
  (walk child mem root path).bind fun table => leaf (mem table j)

/-- The frame is a root, or a table at most `depth` entries below one. -/
def Reached (child : ε → Option ℕ) (depth : ℕ) (roots : ℕ → Prop) (mem : ℕ → ℕ → ε)
    (frame : ℕ) : Prop :=
  ∃ root path, roots root ∧ path.length ≤ depth ∧ walk child mem root path = some frame

/-- Every table is met on one path. Two roots meet the same table only below a shared entry. -/
def TableTree (child : ε → Option ℕ) (depth : ℕ) (roots shared : ℕ → Prop)
    (mem : ℕ → ℕ → ε) : Prop :=
  ∀ ⦃root root' path path' table⦄, roots root → roots root' → path.length ≤ depth →
    path'.length ≤ depth → walk child mem root path = some table →
    walk child mem root' path' = some table →
    path = path' ∧ (root = root' ∨ ∃ i rest, path = i :: rest ∧ shared i)

variable {child : ε → Option ℕ} {leaf : ε → Option β} {depth : ℕ} {roots shared : ℕ → Prop}
  {mem mem' : ℕ → ℕ → ε}

@[simp] theorem walk_nil (frame : ℕ) : walk child mem frame [] = some frame := rfl

theorem walk_cons (frame i : ℕ) (path : List ℕ) : walk child mem frame (i :: path) =
    (child (mem frame i)).bind fun table => walk child mem table path := rfl

theorem walk_append (frame : ℕ) (path path' : List ℕ) :
    walk child mem frame (path ++ path') =
      (walk child mem frame path).bind fun table => walk child mem table path' := by
  induction path generalizing frame with
  | nil => rfl
  | cons i path ih =>
    simp only [cons_append, walk_cons, bind_assoc]
    congr 1
    funext table
    exact ih table

theorem walk_concat (frame : ℕ) (path : List ℕ) (i : ℕ) :
    walk child mem frame (path ++ [i]) =
      (walk child mem frame path).bind fun table => child (mem table i) := by
  rw [walk_append]
  congr 1
  funext table
  simp [walk_cons]

theorem walk_congr (hchild : ∀ frame i, child (mem' frame i) = child (mem frame i))
    (frame : ℕ) (path : List ℕ) : walk child mem' frame path = walk child mem frame path := by
  induction path generalizing frame with
  | nil => rfl
  | cons i path ih =>
    simp only [walk_cons, hchild]
    congr 1
    funext table
    exact ih table

theorem Reached.mono {frame depth' : ℕ} (hreach : Reached child depth roots mem frame)
    (hdepth : depth ≤ depth') : Reached child depth' roots mem frame := by
  obtain ⟨root, path, hroot, hlength, hwalk⟩ := hreach
  exact ⟨root, path, hroot, le_trans hlength hdepth, hwalk⟩

theorem Reached.next {frame next i : ℕ} (hreach : Reached child depth roots mem frame)
    (hnext : child (mem frame i) = some next) : Reached child (depth + 1) roots mem next := by
  obtain ⟨root, path, hroot, hlength, hwalk⟩ := hreach
  refine ⟨root, path ++ [i], hroot, by simp [hlength], ?_⟩
  rw [walk_concat, hwalk, bind_some, hnext]

theorem reached_root {root : ℕ} (hroot : roots root) : Reached child depth roots mem root :=
  ⟨root, [], hroot, Nat.zero_le _, rfl⟩

theorem Reached.ne {frame table : ℕ} (hreach : Reached child depth roots mem table)
    (hfresh : ¬Reached child depth roots mem frame) : table ≠ frame := by
  rintro rfl
  exact hfresh hreach

theorem reached_congr {frame : ℕ} (hwalk : ∀ root path, roots root → path.length ≤ depth →
      walk child mem' root path = walk child mem root path) :
    Reached child depth roots mem' frame ↔ Reached child depth roots mem frame := by
  constructor
  · rintro ⟨root, path, hroot, hlength, h⟩
    exact ⟨root, path, hroot, hlength, by rwa [hwalk root path hroot hlength] at h⟩
  · rintro ⟨root, path, hroot, hlength, h⟩
    exact ⟨root, path, hroot, hlength, by rwa [hwalk root path hroot hlength]⟩

section

variable {frame : ℕ} (hframe : ¬Reached child depth roots mem frame)
  (hagree : ∀ g, g ≠ frame → mem' g = mem g)
include hframe hagree

theorem walk_of_agree {root : ℕ} (hroot : roots root) {path : List ℕ}
    (hlength : path.length ≤ depth) :
    walk child mem' root path = walk child mem root path := by
  induction path using List.reverseRecOn with
  | nil => rfl
  | append_singleton path i ih =>
    rw [length_append, length_singleton] at hlength
    rw [walk_concat, walk_concat, ih (by omega)]
    cases hwalk : walk child mem root path with
    | none => rfl
    | some table =>
      have hne : table ≠ frame := Reached.ne ⟨root, path, hroot, by omega, hwalk⟩ hframe
      simp only [bind_some, hagree table hne]

theorem TableTree.of_agree (htree : TableTree child depth roots shared mem) :
    TableTree child depth roots shared mem' := by
  intro root root' path path' table hroot hroot' hlength hlength' hwalk hwalk'
  rw [walk_of_agree hframe hagree hroot hlength] at hwalk
  rw [walk_of_agree hframe hagree hroot' hlength'] at hwalk'
  exact htree hroot hroot' hlength hlength' hwalk hwalk'

theorem lookup_of_agree {root : ℕ} (hroot : roots root) {path : List ℕ}
    (hlength : path.length ≤ depth) (j : ℕ) :
    lookup child leaf mem' root path j = lookup child leaf mem root path j := by
  unfold lookup
  rw [walk_of_agree hframe hagree hroot hlength]
  cases hwalk : walk child mem root path with
  | none => rfl
  | some table =>
    have hne : table ≠ frame := Reached.ne ⟨root, path, hroot, hlength, hwalk⟩ hframe
    simp only [bind_some, hagree table hne]

end

theorem TableTree.walk_eq_some (htree : TableTree child depth roots shared mem)
    {root root' table : ℕ} {path path' : List ℕ} (hroot : roots root) (hroot' : roots root')
    (hlength : path.length ≤ depth) (hlength' : path'.length ≤ depth)
    (hwalk : walk child mem root path = some table)
    (hwalk' : walk child mem root' path' = some table) : path' = path :=
  (htree hroot hroot' hlength hlength' hwalk hwalk').1.symm

section

variable (hempty : ∀ root i, roots root → child (mem root i) = none)

include hempty

theorem walk_of_empty {root table : ℕ}
    (hroot : roots root) {path : List ℕ} (hwalk : walk child mem root path = some table) :
    path = [] ∧ table = root := by
  cases path with
  | nil => exact ⟨rfl, (Option.some.inj hwalk).symm⟩
  | cons i rest => simp [walk_cons, hempty root i hroot] at hwalk

theorem TableTree.of_empty : TableTree child depth roots shared mem := by
  intro root root' path path' table hroot hroot' _ _ hw hw'
  obtain ⟨rfl, rfl⟩ := walk_of_empty hempty hroot hw
  obtain ⟨rfl, rfl⟩ := walk_of_empty hempty hroot' hw'
  exact ⟨rfl, .inl rfl⟩

theorem roots_of_empty {frame : ℕ}
    (hreach : Reached child depth roots mem frame) : roots frame := by
  obtain ⟨root, path, hroot, -, hwalk⟩ := hreach
  obtain ⟨-, rfl⟩ := walk_of_empty hempty hroot hwalk
  exact hroot

end

section

variable {root root' table j : ℕ} {path path' : List ℕ} {entry : ε}
  (htree : TableTree child depth roots shared mem) (hroot : roots root)
  (hlength : path.length ≤ depth) (hwalk : walk child mem root path = some table)
  (hkeep : child entry = child (mem table j) ∨ depth ≤ path.length)
include htree hroot hlength hwalk hkeep

/-- A word that names the same table, or a word of the last level, changes no walk. -/
theorem walk_storeWord (hroot' : roots root') (hlength' : path'.length ≤ depth) :
    walk child (storeWord mem table j entry) root' path' = walk child mem root' path' := by
  induction path' using List.reverseRecOn with
  | nil => rfl
  | append_singleton rest i ih =>
    rw [length_append, length_singleton] at hlength'
    rw [walk_concat, walk_concat, ih (by omega)]
    cases hrest : walk child mem root' rest with
    | none => rfl
    | some g =>
      simp only [bind_some, storeWord_apply]
      split
      · rename_i hhere
        obtain ⟨rfl, rfl⟩ := hhere
        have hpath := htree.walk_eq_some hroot hroot' hlength (by omega) hwalk hrest
        rcases hkeep with hsame | hlast
        · exact hsame
        · rw [← hpath] at hlast
          omega
      · rfl

theorem TableTree.storeWord : TableTree child depth roots shared (storeWord mem table j entry) := by
  intro r r' p p' u hr hr' hp hp' hw hw'
  rw [walk_storeWord htree hroot hlength hwalk hkeep hr hp] at hw
  rw [walk_storeWord htree hroot hlength hwalk hkeep hr' hp'] at hw'
  exact htree hr hr' hp hp' hw hw'

/-- An entry of a table is met by the lookups that end there. -/
theorem lookup_storeWord (hroot' : roots root') (hlength' : path'.length ≤ depth)
    (i : ℕ) :
    lookup child leaf (storeWord mem table j entry) root' path' i =
      if walk child mem root' path' = some table ∧ i = j then leaf entry
      else lookup child leaf mem root' path' i := by
  unfold lookup
  rw [walk_storeWord htree hroot hlength hwalk hkeep hroot' hlength']
  cases hg : walk child mem root' path' with
  | none => simp
  | some g =>
    simp only [bind_some, storeWord_apply, Option.some.injEq]
    split <;> rfl

end

section

variable {root root' table frame j : ℕ} {path path' : List ℕ} {blank entry : ε}

/-- Clear a frame and let an entry of a table name it. -/
def install (mem : ℕ → ℕ → ε) (table j frame : ℕ) (blank entry : ε) : ℕ → ℕ → ε :=
  storeWord (assign mem frame fun _ => blank) table j entry

theorem install_apply (mem : ℕ → ℕ → ε) (table j frame : ℕ) (blank entry : ε) (f i : ℕ) :
    install mem table j frame blank entry f i =
      if f = table ∧ i = j then entry else if f = frame then blank else mem f i := by
  unfold install
  rw [storeWord_apply, assign_apply]
  split
  · rfl
  · split <;> rfl

variable (htree : TableTree child depth roots shared mem) (hroot : roots root)
  (hlength : path.length ≤ depth) (hwalk : walk child mem root path = some table)
  (hfresh : ¬Reached child depth roots mem frame) (hblank : child blank = none)
  (hvac : child (mem table j) = none) (hentry : child entry = some frame)
include htree hroot hlength hwalk hfresh hblank hvac hentry

/-- A new table is met on one path. All other walks lead where they led. -/
theorem walk_install (hroot' : roots root') (hlength' : path'.length ≤ depth) :
    walk child (install mem table j frame blank entry) root' path' =
      if walk child mem root' path = some table ∧ path' = path ++ [j] then some frame
      else walk child mem root' path' := by
  have hframe : frame ≠ table :=
    (Reached.ne ⟨root, path, hroot, hlength, hwalk⟩ hfresh).symm
  induction path' using List.reverseRecOn with
  | nil => simp
  | append_singleton rest i ih =>
    rw [length_append, length_singleton] at hlength'
    rw [walk_concat, walk_concat, ih (by omega)]
    by_cases hnew : walk child mem root' path = some table ∧ rest = path ++ [j]
    · -- below the new table there is nothing
      have hnone : walk child mem root' rest = none := by
        rw [hnew.2, walk_concat, hnew.1, bind_some, hvac]
      have hlong : ¬(rest ++ [i] = path ++ [j]) := by
        intro heq
        have hlen := congrArg List.length heq
        rw [hnew.2] at hlen
        simp at hlen
      rw [if_pos hnew, if_neg (fun h => hlong h.2), hnone]
      simp [install_apply, hframe, hblank]
    · rw [if_neg hnew]
      cases hrest : walk child mem root' rest with
      | none =>
        rw [if_neg]
        · simp
        · rintro ⟨hthere, heq⟩
          obtain ⟨rfl, -⟩ := append_inj' heq rfl
          rw [hthere] at hrest
          cases hrest
      | some g =>
        have hg : g ≠ frame := Reached.ne ⟨root', rest, hroot', by omega, hrest⟩ hfresh
        simp only [bind_some, install_apply, if_neg hg]
        by_cases hhere : g = table ∧ i = j
        · obtain ⟨rfl, rfl⟩ := hhere
          have hpath := htree.walk_eq_some hroot hroot' hlength (by omega) hwalk hrest
          subst hpath
          simp [hrest, hentry]
        · rw [if_neg hhere, if_neg]
          rintro ⟨hthere, heq⟩
          obtain ⟨rfl, hi⟩ := append_inj' heq rfl
          rw [hthere] at hrest
          exact hhere ⟨(Option.some.inj hrest).symm, by simpa using hi⟩

theorem TableTree.install :
    TableTree child depth roots shared (install mem table j frame blank entry) := by
  intro r r' p p' u hr hr' hp hp' hw hw'
  rw [walk_install htree hroot hlength hwalk hfresh hblank hvac hentry hr hp] at hw
  rw [walk_install htree hroot hlength hwalk hfresh hblank hvac hentry hr' hp'] at hw'
  have hold : ∀ q v, roots q → v.length ≤ depth → walk child mem q v ≠ some frame :=
    fun q v hq hv hreach => hfresh ⟨q, v, hq, hv, hreach⟩
  split at hw
  · rename_i hnew
    cases hw
    split at hw'
    · rename_i hnew'
      obtain ⟨-, hsame⟩ := htree hr hr' hlength hlength hnew.1 hnew'.1
      refine ⟨hnew.2.trans hnew'.2.symm, hsame.imp_right ?_⟩
      rintro ⟨i, rest, rfl, hi⟩
      exact ⟨i, rest ++ [j], hnew.2, hi⟩
    · exact absurd hw' (hold r' p' hr' hp')
  · split at hw'
    · cases hw'
      exact absurd hw (hold r p hr hp)
    · exact htree hr hr' hp hp' hw hw'

theorem reached_install {g : ℕ}
    (hreach : Reached child depth roots (install mem table j frame blank entry) g) :
    g = frame ∨ Reached child depth roots mem g := by
  obtain ⟨r, p, hr, hp, hw⟩ := hreach
  rw [walk_install htree hroot hlength hwalk hfresh hblank hvac hentry hr hp] at hw
  split at hw
  · exact .inl (Option.some.inj hw).symm
  · exact .inr ⟨r, p, hr, hp, hw⟩

theorem lookup_install (hblankLeaf : leaf blank = none) (hroot' : roots root')
    (hlength' : path'.length ≤ depth) (hleaf : path' = path → leaf entry = leaf (mem table j)) (i : ℕ) :
    lookup child leaf (install mem table j frame blank entry) root' path' i =
      lookup child leaf mem root' path' i := by
  have hframe : frame ≠ table :=
    (Reached.ne ⟨root, path, hroot, hlength, hwalk⟩ hfresh).symm
  unfold lookup
  rw [walk_install htree hroot hlength hwalk hfresh hblank hvac hentry hroot' hlength']
  split
  · rename_i hnew
    have hnone : walk child mem root' path' = none := by
      rw [hnew.2, walk_concat, hnew.1, bind_some, hvac]
    rw [hnone]
    simp [install_apply, hframe, hblankLeaf]
  · cases hg : walk child mem root' path' with
    | none => rfl
    | some g =>
      have hne : g ≠ frame := Reached.ne ⟨root', path', hroot', hlength', hg⟩ hfresh
      simp only [bind_some, install_apply, if_neg hne]
      split
      · rename_i hhere
        obtain ⟨rfl, rfl⟩ := hhere
        rw [hleaf (htree.walk_eq_some hroot hroot' hlength hlength' hwalk hg)]
      · rfl

end

variable {kernel frame : ℕ} {content : ℕ → ε}

theorem lookup_newRoot_shared (hker : roots kernel)
    (hfresh : ¬Reached child depth roots mem frame) {i : ℕ}
    (hshare : content i = mem kernel i) {rest : List ℕ} (hlength : rest.length < depth) (j : ℕ) :
    lookup child leaf (assign mem frame content) frame (i :: rest) j =
      lookup child leaf mem kernel (i :: rest) j := by
  have hne := (reached_root hker).ne hfresh
  have hsame : walk child (assign mem frame content) frame (i :: rest) =
      walk child (assign mem frame content) kernel (i :: rest) := by
    simp only [walk_cons, assign_same, assign_of_ne _ _ hne, hshare]
  rw [← lookup_of_agree hfresh (fun g hg => assign_of_ne mem content hg) hker
    (show (i :: rest).length ≤ depth from hlength)]
  unfold lookup
  rw [hsame]

theorem lookup_newRoot_private {i : ℕ} (hprivate : child (content i) = none) (rest : List ℕ)
    (j : ℕ) : lookup child leaf (assign mem frame content) frame (i :: rest) j = none := by
  simp [lookup, walk_cons, hprivate]

variable (hker : roots kernel) (hfresh : ¬Reached child depth roots mem frame)
  (hshare : ∀ i, shared i → content i = mem kernel i)
  (hprivate : ∀ i, ¬shared i → child (content i) = none)
include hker hfresh hshare hprivate

theorem walk_newRoot {path : List ℕ} (hlength : path.length ≤ depth) {table : ℕ}
    (hwalk : walk child (assign mem frame content) frame path = some table) :
    path = [] ∧ table = frame ∨
      ∃ i rest, path = i :: rest ∧ shared i ∧ walk child mem kernel path = some table := by
  cases path with
  | nil => exact .inl ⟨rfl, (Option.some.inj hwalk).symm⟩
  | cons i rest =>
    right
    have hne := (reached_root hker).ne hfresh
    by_cases hi : shared i
    · refine ⟨i, rest, rfl, hi, ?_⟩
      have hsame : walk child (assign mem frame content) frame (i :: rest) =
          walk child (assign mem frame content) kernel (i :: rest) := by
        simp only [walk_cons, assign_same, assign_of_ne _ _ hne, hshare i hi]
      rw [hsame] at hwalk
      rwa [walk_of_agree hfresh (fun g hg => assign_of_ne mem content hg) hker hlength] at hwalk
    · simp [walk_cons, hprivate i hi] at hwalk

theorem TableTree.newRoot (htree : TableTree child depth roots shared mem) :
    TableTree child depth (fun d => d = frame ∨ roots d) shared (assign mem frame content) := by
  have hold : ∀ root path, roots root → path.length ≤ depth →
      walk child (assign mem frame content) root path = walk child mem root path :=
    fun root path hroot hlength =>
      walk_of_agree hfresh (fun g hg => assign_of_ne mem content hg) hroot hlength
  have hunreach : ∀ root path, roots root → path.length ≤ depth →
      walk child mem root path ≠ some frame :=
    fun root path hroot hlength hreach => hfresh ⟨root, path, hroot, hlength, hreach⟩
  -- a walk from any root is the root itself, or a walk from an old root
  have hnorm : ∀ root path table, (root = frame ∨ roots root) → path.length ≤ depth →
      walk child (assign mem frame content) root path = some table →
      (root = frame ∧ path = [] ∧ table = frame) ∨
        ∃ old, roots old ∧ walk child mem old path = some table ∧
          (old = root ∨ ∃ i rest, path = i :: rest ∧ shared i) := by
    intro root path table hroot hlength hwalk
    rcases hroot with rfl | hroot
    · rcases walk_newRoot hker hfresh hshare hprivate hlength hwalk with hself | hbelow
      · exact .inl ⟨rfl, hself⟩
      · obtain ⟨i, rest, hpath, hi, hwalk'⟩ := hbelow
        exact .inr ⟨kernel, hker, hwalk', .inr ⟨i, rest, hpath, hi⟩⟩
    · rw [hold root path hroot hlength] at hwalk
      exact .inr ⟨root, hroot, hwalk, .inl rfl⟩
  intro root root' path path' table hroot hroot' hlength hlength' hwalk hwalk'
  rcases hnorm root path table hroot hlength hwalk with ⟨rfl, rfl, rfl⟩ | ⟨old, ho, hw, hsame⟩
  · rcases hnorm root' path' table hroot' hlength' hwalk' with ⟨rfl, rfl, -⟩ | ⟨old', ho', hw', -⟩
    · exact ⟨rfl, .inl rfl⟩
    · exact absurd hw' (hunreach old' path' ho' hlength')
  · rcases hnorm root' path' table hroot' hlength' hwalk' with ⟨rfl, rfl, rfl⟩ | ⟨old', ho', hw', hsame'⟩
    · exact absurd hw (hunreach old path ho hlength)
    · obtain ⟨rfl, hroots⟩ := htree ho ho' hlength hlength' hw hw'
      refine ⟨rfl, ?_⟩
      rcases hsame with rfl | hs
      · rcases hsame' with rfl | hs'
        · exact hroots
        · exact .inr hs'
      · exact .inr hs

theorem reached_newRoot {g : ℕ}
    (hreach : Reached child depth (fun d => d = frame ∨ roots d) (assign mem frame content) g) :
    g = frame ∨ Reached child depth roots mem g := by
  obtain ⟨root, path, hroot, hlength, hwalk⟩ := hreach
  rcases hroot with rfl | hroot
  · rcases walk_newRoot hker hfresh hshare hprivate hlength hwalk with hself | hbelow
    · exact .inl hself.2
    · obtain ⟨i, rest, hpath, hi, hwalk'⟩ := hbelow
      exact .inr ⟨kernel, path, hker, hlength, hwalk'⟩
  · rw [walk_of_agree hfresh (fun g hg => assign_of_ne mem content hg) hroot hlength] at hwalk
    exact .inr ⟨root, path, hroot, hlength, hwalk⟩

end Lib
