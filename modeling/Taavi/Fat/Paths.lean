import Mathlib.Data.List.TakeWhile
import Taavi.Fat.Lookup

/-!
# Splitting paths

`fat32_mkdirp` and `fat32_find_cluster` split paths with code of their own, into names of up to
twelve characters. The first skips all slashes before a name, the second looks up an empty name for
each further one.
-/

namespace Taavi.Fat

open Lib List

variable {path rest comp : List UInt8} {n d : ℕ}

/-- The names that `fat32_mkdirp` walks, with a bound for their number. -/
def walkedFrom : ℕ → List UInt8 → List (List UInt8)
  | 0, _ => []
  | n + 1, path =>
    match walkDirPath path with
    | none => []
    | some (name83, rest) => name83 :: walkedFrom n rest

def walkedNames (path : List UInt8) : List (List UInt8) := walkedFrom (path.length + 1) path

/-- The names that the loop of `fat32_find_cluster` looks up, with a bound for their number. -/
def lookedUpFrom : ℕ → List UInt8 → List (List UInt8)
  | 0, _ => []
  | n + 1, path =>
    if path.isEmpty then []
    else
      let segment := firstSegment path
      format83 segment :: lookedUpFrom n (skipSlash (path.drop segment.length))

def lookedUpNames (path : List UInt8) : List (List UInt8) :=
  lookedUpFrom (path.length + 1) (skipSlash path)

def components (path : List UInt8) : List (List UInt8) :=
  (path.splitOn slash).filter fun component => !component.isEmpty

/-- There are two slashes next to each other. -/
def hasDoubleSlash : List UInt8 → Bool
  | a :: b :: path => (a == slash && b == slash) || hasDoubleSlash (b :: path)
  | _ => false

def endsWithSlash (path : List UInt8) : Bool := path.getLast? == some slash

section

variable (m : Mount) (fuel block : ℕ)

/-- `fat32_find_cluster` on a sequence of names. A path that ends with a slash is not found. -/
def lookUp (trailing : Bool) : List (List UInt8) → ℕ → Action (Option Resolved)
  | [], _ => pure none
  | name83 :: names, directory => do
    match ← searchDir m fuel directory name83 with
    | none => pure none
    | some found =>
      if names.isEmpty && !trailing then
        let dirCluster := if directory = 0 then m.rootCluster else directory
        pure (some ⟨found.cluster, dirCluster, found.size, found.attr⟩)
      else if found.attr &&& attrDirectory == 0 then pure none
      else lookUp trailing names found.cluster

/-- The loop of `fat32_mkdirp` on names. A path that ends with a slash fails behind them. -/
def makeNames (trailing : Bool) : List (List UInt8) → ℕ → Action Bool
  | [], directory =>
    if trailing then do
      let _ ← readCluster m directory
      kfree block
      pure false
    else do
      kfree block
      pure true
  | name83 :: names, directory => do
    match ← readCluster m directory with
    | none => do
      kfree block
      pure false
    | some buf =>
      let maxEntries := calculateMaxDirEntries m.toGeometry
      match firstSlot maxEntries (isDirectoryNamed buf · name83) with
      | some i => makeNames trailing names (entryCluster buf i)
      | none =>
        match firstSlot maxEntries (isUnused buf) with
        | some i =>
          match ← addEntry m directory buf i name83 attrDirectory with
          | none => do
            kfree block
            pure false
          | some cluster => makeNames trailing names cluster
        | none => do
          let next ← linkClusterChain m directory
          if next = invalidCluster then do
            kfree block
            pure false
          else makeNames trailing names next

end

/-- What comes behind a component begins with a slash. -/
def Ended (rest : List UInt8) : Prop := rest = [] ∨ ∃ r, rest = slash :: r

theorem exists_component (hpath : path ≠ []) (hslash : path.head? ≠ some slash) :
    ∃ comp rest, path = comp ++ rest ∧ comp ≠ [] ∧ slash ∉ comp ∧ Ended rest := by
  refine ⟨path.takeWhile (· != slash), path.dropWhile (· != slash),
    takeWhile_append_dropWhile.symm, ?_, ?_, ?_⟩
  · cases path with
    | nil => exact absurd rfl hpath
    | cons c path =>
      have hc : c ≠ slash := fun h => hslash (congrArg some h)
      simp [hc]
  · intro hmem
    have hne := mem_takeWhile_imp hmem
    simp at hne
  · cases hdrop : path.dropWhile (· != slash) with
    | nil => exact .inl rfl
    | cons c r =>
      have hc := List.head?_dropWhile_not (· != slash) path
      rw [hdrop] at hc
      have hc' : c = slash := by simpa using hc
      exact .inr ⟨r, by rw [hc']⟩

theorem length_part (hne : comp ≠ []) :
    (skipSlash (comp.drop 12 ++ rest)).length < (comp ++ rest).length := by
  refine (length_skipSlash_le _).trans_lt ?_
  have hpos := length_pos_of_ne_nil hne
  simp only [length_append, length_drop]
  omega

/-- A path is empty, begins with a slash, or begins with a component of which a part is taken. -/
theorem path_induction {motive : List UInt8 → Prop} (nil : motive [])
    (slash : ∀ rest, motive rest → motive (slash :: rest))
    (part : ∀ comp rest, comp ≠ [] → Fat.slash ∉ comp → Ended rest →
      motive (skipSlash (comp.drop 12 ++ rest)) → motive (comp ++ rest)) (path : List UInt8) :
    motive path := by
  induction hlen : path.length using Nat.strong_induction_on generalizing path with
  | h n ih =>
    subst hlen
    by_cases hpath : path = []
    · rw [hpath]
      exact nil
    by_cases hslash : path.head? = some Fat.slash
    · obtain ⟨rest, rfl⟩ := List.head?_eq_some_iff.mp hslash
      exact slash rest (ih rest.length (Nat.lt_succ_self _) rest rfl)
    obtain ⟨comp, rest, rfl, hne, hcomp, hrest⟩ := exists_component hpath hslash
    exact part comp rest hne hcomp hrest (ih _ (length_part hne) _ rfl)

theorem firstSegment_append (hcomp : slash ∉ comp) (hrest : Ended rest) :
    firstSegment (comp ++ rest) = comp.take 12 := by
  have hword : (comp ++ rest).takeWhile (· != slash) = comp := by
    rw [takeWhile_append_of_pos]
    · rcases hrest with rfl | ⟨r, rfl⟩ <;> simp
    · intro c hc
      simpa using fun h : c = slash => hcomp (h ▸ hc)
  rw [firstSegment, ← take_takeWhile, hword]

theorem drop_firstSegment (hcomp : slash ∉ comp) (hrest : Ended rest) :
    (comp ++ rest).drop (firstSegment (comp ++ rest)).length = comp.drop 12 ++ rest := by
  rw [firstSegment_append hcomp hrest, length_take]
  by_cases hlong : 12 ≤ comp.length
  · rw [Nat.min_eq_left hlong, drop_append_of_le_length hlong]
  · have hshort : comp.length ≤ 12 := by omega
    rw [Nat.min_eq_right hshort, drop_left, drop_eq_nil_of_le hshort, nil_append]

theorem walkDirPath_slash (rest : List UInt8) : walkDirPath (slash :: rest) = walkDirPath rest := by
  simp [walkDirPath]

theorem walkDirPath_append (hne : comp ≠ []) (hcomp : slash ∉ comp) (hrest : Ended rest) :
    walkDirPath (comp ++ rest) = some (format83 (comp.take 12), comp.drop 12 ++ rest) := by
  have hskip : (comp ++ rest).dropWhile (· == slash) = comp ++ rest := by
    cases comp with
    | nil => exact absurd rfl hne
    | cons c comp =>
      have hc : c ≠ slash := fun h => hcomp (h ▸ mem_cons_self)
      simp [hc]
  have hempty : (comp ++ rest).isEmpty = false := by simp [hne]
  unfold walkDirPath
  simp only [hskip, hempty]
  rw [drop_firstSegment hcomp hrest, firstSegment_append hcomp hrest]
  rfl

theorem skipSlash_slash (path : List UInt8) : skipSlash (slash :: path) = path := by
  simp [skipSlash]

theorem skipSlash_cases (path : List UInt8) :
    (∃ rest, path = slash :: rest ∧ skipSlash path = rest) ∨
      path.head? ≠ some slash ∧ skipSlash path = path := by
  cases path with
  | nil => exact .inr ⟨nofun, rfl⟩
  | cons c path =>
    by_cases hc : c = slash
    · exact .inl ⟨path, by rw [hc], by simp [skipSlash, hc]⟩
    · exact .inr ⟨by simpa using hc, by simp [skipSlash, hc]⟩

theorem head?_append_ne (hne : comp ≠ []) (hcomp : slash ∉ comp) :
    (comp ++ rest).head? ≠ some slash := by
  rw [List.head?_append_of_ne_nil _ hne]
  exact fun h => hcomp (mem_of_mem_head? h)

theorem skipSlash_append (hne : comp ≠ []) (hcomp : slash ∉ comp) :
    skipSlash (comp ++ rest) = comp ++ rest := by
  rcases skipSlash_cases (comp ++ rest) with ⟨tail, heq, -⟩ | ⟨-, heq⟩
  · have hhead : (comp ++ rest).head? ≠ some slash := head?_append_ne hne hcomp
    rw [heq] at hhead
    exact absurd rfl hhead
  · exact heq

theorem components_nil : components [] = [] := by simp [components]

theorem components_slash (rest : List UInt8) : components (slash :: rest) = components rest := by
  have hsplit : (slash :: rest).splitOn slash = [] :: rest.splitOn slash := by
    simpa using splitOn_append_cons_self (a := slash) [] rest
  simp [components, hsplit]

theorem components_append (hne : comp ≠ []) (hcomp : slash ∉ comp) (hrest : Ended rest) :
    components (comp ++ rest) = comp :: components rest := by
  rcases hrest with rfl | ⟨r, rfl⟩
  · rw [append_nil, components_nil, components, splitOn_eq_singleton hcomp]
    simp [hne]
  · rw [components_slash, components, splitOn_append_cons_self,
      splitOn_eq_singleton hcomp, singleton_append, filter_cons_of_pos]
    · rfl
    · simp [hne]

theorem components_skipSlash (path : List UInt8) :
    components (skipSlash path) = components path := by
  rcases skipSlash_cases path with ⟨rest, rfl, heq⟩ | ⟨-, heq⟩
  · rw [heq, components_slash]
  · rw [heq]

/-- What is left of a component of more than twelve characters is a component. -/
theorem components_part (hcomp : slash ∉ comp) (hrest : Ended rest) :
    components (skipSlash (comp.drop 12 ++ rest)) =
      if comp.length ≤ 12 then components rest else comp.drop 12 :: components rest := by
  rw [components_skipSlash]
  split_ifs with hshort
  · rw [drop_eq_nil_of_le hshort, nil_append]
  · exact components_append (by simpa using hshort) (fun h => hcomp (mem_of_mem_drop h)) hrest

theorem hasDoubleSlash_append (hcomp : slash ∉ comp) (rest : List UInt8) :
    hasDoubleSlash (comp ++ rest) = hasDoubleSlash rest := by
  induction comp with
  | nil => rfl
  | cons c comp ih =>
    have hc : c ≠ slash := fun h => hcomp (h ▸ mem_cons_self)
    rw [← ih fun h => hcomp (mem_cons_of_mem _ h), cons_append]
    cases comp ++ rest with
    | nil => rfl
    | cons b path => simp [hasDoubleSlash, hc]

theorem hasDoubleSlash_slash (rest : List UInt8) :
    hasDoubleSlash (slash :: rest) = (rest.head? == some slash || hasDoubleSlash rest) := by
  cases rest with
  | nil => rfl
  | cons b path => simp [hasDoubleSlash]

section

/-- A way to split paths. It takes components in parts of twelve characters, and may give further
names for slashes. -/
structure Splits (names : ℕ → List UInt8 → List (List UInt8)) : Prop where
  part : ∀ n comp rest, comp ≠ [] → slash ∉ comp → Ended rest →
    names (n + 1) (comp ++ rest) = format83 (comp.take 12) :: names n
      (skipSlash (comp.drop 12 ++ rest))
  behind : ∀ n rest, (names n rest).length ≤ (names (n + 1) (slash :: rest)).length

variable {names : ℕ → List UInt8 → List (List UInt8)}

theorem Splits.length_le (h : Splits names) (path : List UInt8) : ∀ n, path.length < n →
    (components path).length ≤ (names n path).length ∧
      ((∃ comp ∈ components path, 12 < comp.length) →
        (components path).length < (names n path).length) := by
  induction path using path_induction with
  | nil =>
    intro n _
    simp [components_nil]
  | slash rest ih =>
    intro n hn
    obtain ⟨n, rfl⟩ : ∃ k, n = k + 1 := ⟨n - 1, by omega⟩
    have hle := h.behind n rest
    obtain ⟨hall, hlonger⟩ := ih n (by simpa using hn)
    rw [components_slash]
    exact ⟨hall.trans hle, fun hlong => (hlonger hlong).trans_le hle⟩
  | part comp rest hne hcomp hrest ih =>
    intro n hn
    obtain ⟨n, rfl⟩ : ∃ k, n = k + 1 := ⟨n - 1, by omega⟩
    obtain ⟨hall, hlonger⟩ := ih n ((length_part hne).trans_le (Nat.le_of_lt_succ hn))
    rw [components_part hcomp hrest] at hall hlonger
    rw [h.part n comp rest hne hcomp hrest, components_append hne hcomp hrest, length_cons,
      length_cons]
    split_ifs at hall hlonger with hshort
    · refine ⟨Nat.succ_le_succ hall, ?_⟩
      rintro ⟨other, hother, hlong⟩
      rcases mem_cons.mp hother with rfl | hother
      · omega
      · exact Nat.succ_lt_succ (hlonger ⟨other, hother, hlong⟩)
    · rw [length_cons] at hall
      exact ⟨by omega, fun _ => by omega⟩

theorem Splits.eq_map (h : Splits names) (hnil : ∀ n, names n [] = []) (quiet : List UInt8 → Prop)
    (hslash : ∀ n rest, quiet (slash :: rest) → names n (slash :: rest) = names n rest ∧ quiet rest)
    (hbehind : ∀ comp rest, slash ∉ comp → quiet (comp ++ rest) → quiet (skipSlash rest))
    (path : List UInt8) : ∀ n, path.length < n → quiet path →
      (∀ comp ∈ components path, comp.length ≤ 12) →
      names n path = (components path).map format83 := by
  induction path using path_induction with
  | nil =>
    intro n _ _ _
    rw [hnil, components_nil]
    rfl
  | slash rest ih =>
    intro n hn hquiet hshort
    obtain ⟨hnames, hrest⟩ := hslash n rest hquiet
    rw [components_slash] at hshort ⊢
    rw [hnames]
    exact ih n (by simp at hn; omega) hrest hshort
  | part comp rest hne hcomp hrest ih =>
    intro n hn hquiet hall
    obtain ⟨n, rfl⟩ : ∃ k, n = k + 1 := ⟨n - 1, by omega⟩
    rw [components_append hne hcomp hrest] at hall ⊢
    have hshort := hall comp mem_cons_self
    have hih := ih n ((length_part hne).trans_le (Nat.le_of_lt_succ hn))
    rw [components_part hcomp hrest, if_pos hshort, drop_eq_nil_of_le hshort,
      nil_append] at hih
    rw [h.part n comp rest hne hcomp hrest, take_of_length_le hshort,
      drop_eq_nil_of_le hshort, nil_append, map_cons]
    refine congrArg _ (hih (hbehind comp rest hcomp hquiet) fun other hother => ?_)
    exact hall other (mem_cons_of_mem _ hother)

theorem walkedFrom_slash (n : ℕ) (rest : List UInt8) :
    walkedFrom n (slash :: rest) = walkedFrom n rest := by
  cases n with
  | zero => rfl
  | succ n => rw [walkedFrom, walkedFrom, walkDirPath_slash]

theorem walkedFrom_skipSlash (n : ℕ) (path : List UInt8) :
    walkedFrom n (skipSlash path) = walkedFrom n path := by
  rcases skipSlash_cases path with ⟨rest, rfl, heq⟩ | ⟨-, heq⟩
  · rw [heq, walkedFrom_slash]
  · rw [heq]

theorem length_walkedFrom_le (n : ℕ) (path : List UInt8) :
    (walkedFrom n path).length ≤ (walkedFrom (n + 1) path).length := by
  induction n generalizing path with
  | zero => exact Nat.zero_le _
  | succ n ih =>
    rw [walkedFrom, walkedFrom]
    cases walkDirPath path with
    | none => exact le_refl _
    | some step => exact Nat.succ_le_succ (ih step.2)

theorem splits_walkedFrom : Splits walkedFrom := by
  refine ⟨fun n comp rest hne hcomp hrest => ?_, fun n rest => ?_⟩
  · rw [walkedFrom, walkDirPath_append hne hcomp hrest, walkedFrom_skipSlash]
  · rw [walkedFrom_slash]
    exact length_walkedFrom_le n rest

theorem lookedUpFrom_slash (n : ℕ) (rest : List UInt8) :
    lookedUpFrom (n + 1) (slash :: rest) = format83 [] :: lookedUpFrom n rest := by
  have hseg : firstSegment (slash :: rest) = [] := by simp [firstSegment]
  rw [lookedUpFrom, hseg]
  simp [skipSlash_slash]

theorem splits_lookedUpFrom : Splits lookedUpFrom := by
  refine ⟨fun n comp rest hne hcomp hrest => ?_, fun n rest => ?_⟩
  · have hempty : (comp ++ rest).isEmpty = false := by simp [hne]
    simp only [lookedUpFrom, hempty]
    rw [drop_firstSegment hcomp hrest, firstSegment_append hcomp hrest]
    rfl
  · rw [lookedUpFrom_slash]
    exact Nat.le_succ _

theorem walkedNames_eq (hshort : ∀ comp ∈ components path, comp.length ≤ 12) :
    walkedNames path = (components path).map format83 := by
  have hnil : ∀ n, walkedFrom n [] = [] := by
    intro n
    cases n with
    | zero => rfl
    | succ n => rw [walkedFrom, walkDirPath_nil]
  exact splits_walkedFrom.eq_map hnil (fun _ => True)
    (fun n rest _ => ⟨walkedFrom_slash n rest, trivial⟩) (fun _ _ _ _ => trivial) path
    (path.length + 1) (Nat.lt_succ_self _) trivial hshort

/-- The path has no slash where a name is looked up. -/
def Tidy (path : List UInt8) : Prop := path.head? ≠ some slash ∧ hasDoubleSlash path = false

theorem tidy_iff : Tidy rest ↔ hasDoubleSlash (slash :: rest) = false := by
  rw [hasDoubleSlash_slash, Bool.or_eq_false_iff, beq_eq_false_iff_ne]
  exact Iff.rfl

theorem tidy_skipSlash_iff : Tidy (skipSlash path) ↔ hasDoubleSlash path = false := by
  rcases skipSlash_cases path with ⟨rest, rfl, heq⟩ | ⟨hhead, heq⟩
  · rw [heq, tidy_iff]
  · rw [heq]
    exact and_iff_right hhead

theorem lookedUpNames_eq (hshort : ∀ comp ∈ components path, comp.length ≤ 12)
    (hdouble : hasDoubleSlash path = false) :
    lookedUpNames path = (components path).map format83 := by
  have hnil : ∀ n, lookedUpFrom n [] = [] := by
    intro n
    cases n <;> rfl
  have hlen : (skipSlash path).length < path.length + 1 :=
    Nat.lt_succ_of_le (length_skipSlash_le path)
  rw [← components_skipSlash] at hshort ⊢
  refine splits_lookedUpFrom.eq_map hnil Tidy (fun n rest h => absurd rfl h.1) ?_ (skipSlash path)
    (path.length + 1) hlen (tidy_skipSlash_iff.mpr hdouble) hshort
  intro comp rest hcomp htidy
  rw [tidy_skipSlash_iff, ← hasDoubleSlash_append hcomp]
  exact htidy.2

theorem length_lt_lookedUpFrom (path : List UInt8) : ∀ n, path.length < n → ¬Tidy path →
    (components path).length < (lookedUpFrom n path).length := by
  induction path using path_induction with
  | nil =>
    intro n _ hnot
    exact absurd ⟨by simp, rfl⟩ hnot
  | slash rest ih =>
    intro n hn _
    obtain ⟨n, rfl⟩ : ∃ k, n = k + 1 := ⟨n - 1, by omega⟩
    rw [components_slash, lookedUpFrom_slash]
    exact Nat.lt_succ_of_le (splits_lookedUpFrom.length_le rest n (by simpa using hn)).1
  | part comp rest hne hcomp hrest ih =>
    intro n hn hnot
    by_cases hshort : comp.length ≤ 12
    · obtain ⟨n, rfl⟩ : ∃ k, n = k + 1 := ⟨n - 1, by omega⟩
      have hrest' : ¬Tidy (skipSlash (comp.drop 12 ++ rest)) := by
        rw [drop_eq_nil_of_le hshort, nil_append, tidy_skipSlash_iff,
          ← hasDoubleSlash_append hcomp]
        exact fun hdouble => hnot ⟨head?_append_ne hne hcomp, hdouble⟩
      have hlt := ih n ((length_part hne).trans_le (Nat.le_of_lt_succ hn)) hrest'
      rw [components_part hcomp hrest, if_pos hshort] at hlt
      rw [splits_lookedUpFrom.part n comp rest hne hcomp hrest, components_append hne hcomp hrest]
      exact Nat.succ_lt_succ hlt
    · refine (splits_lookedUpFrom.length_le _ n hn).2 ⟨comp, ?_, Nat.lt_of_not_le hshort⟩
      rw [components_append hne hcomp hrest]
      exact mem_cons_self

end

theorem endsWithSlash_append (hrest : rest ≠ []) (path : List UInt8) :
    endsWithSlash (path ++ rest) = endsWithSlash rest := by
  rw [endsWithSlash, List.getLast?_append_of_ne_nil _ hrest, endsWithSlash]

theorem endsWithSlash_of_not_mem (hcomp : slash ∉ comp) : endsWithSlash comp = false := by
  rw [endsWithSlash, beq_eq_false_iff_ne]
  exact fun h => hcomp (mem_of_getLast? h)

theorem endsWithSlash_drop (hcomp : slash ∉ comp) (k : ℕ) (rest : List UInt8) :
    endsWithSlash (comp.drop k ++ rest) = endsWithSlash (comp ++ rest) := by
  by_cases hrest : rest = []
  · subst hrest
    rw [append_nil, append_nil, endsWithSlash_of_not_mem hcomp,
      endsWithSlash_of_not_mem fun h => hcomp (mem_of_mem_drop h)]
  · rw [endsWithSlash_append hrest, endsWithSlash_append hrest]

theorem endsWithSlash_slash (hrest : rest ≠ []) :
    endsWithSlash (slash :: rest) = endsWithSlash rest :=
  endsWithSlash_append hrest [slash]

theorem walkDirPath_ends (path : List UInt8) :
    (walkDirPath path = none ∧ (path = [] ∨ endsWithSlash path = true)) ∨
      ∃ name83 rest, walkDirPath path = some (name83, rest) ∧
        endsWithSlash rest = endsWithSlash path := by
  have hcomponent : ∀ comp rest, comp ≠ [] → slash ∉ comp → Ended rest →
      ∃ name83 rest', walkDirPath (comp ++ rest) = some (name83, rest') ∧
        endsWithSlash rest' = endsWithSlash (comp ++ rest) := fun comp rest hne hcomp hrest =>
    ⟨_, _, walkDirPath_append hne hcomp hrest, endsWithSlash_drop hcomp 12 rest⟩
  induction path using path_induction with
  | nil => exact .inl ⟨rfl, .inl rfl⟩
  | slash rest ih =>
    rw [walkDirPath_slash]
    rcases ih with ⟨hnone, hrest⟩ | ⟨name83, rest', hsome, hends⟩
    · refine .inl ⟨hnone, .inr ?_⟩
      rcases hrest with rfl | hslash
      · rfl
      · have hne : rest ≠ [] := by
          rintro rfl
          cases hslash
        rw [endsWithSlash_slash hne, hslash]
    · refine .inr ⟨name83, rest', hsome, ?_⟩
      have hne : rest ≠ [] := by
        rintro rfl
        cases hsome
      rw [hends, endsWithSlash_slash hne]
  | part comp rest hne hcomp hrest _ => exact .inr (hcomponent comp rest hne hcomp hrest)

theorem mkdirpLoop_eq (m : Mount) (block : ℕ) (hn : path.length < n) (d : ℕ) :
    mkdirpLoop m block n d path = makeNames m block (endsWithSlash path) (walkedFrom n path) d := by
  induction n generalizing path d with
  | zero => omega
  | succ n ih =>
    cases path with
    | nil => rfl
    | cons c path =>
      rw [mkdirpLoop, walkedFrom]
      rcases walkDirPath_ends (c :: path) with ⟨hnone, hends⟩ | ⟨name83, rest, hsome, hends⟩
      · rw [hnone, hends.resolve_left (cons_ne_nil _ _)]
        simp only [isEmpty_cons, makeNames]
        refine congrArg (readCluster m d >>= ·) (funext fun r => ?_)
        cases r <;> rfl
      · have hshort := (walkDirPath_eq_some hsome).2
        have hrest : ∀ d, mkdirpLoop m block n d rest =
            makeNames m block (endsWithSlash (c :: path)) (walkedFrom n rest) d := by
          intro d
          rw [← hends]
          exact ih (by omega) d
        simp only [hsome, isEmpty_cons, makeNames, hrest]
        rfl

theorem firstSegment_append_tailPath (path : List UInt8) :
    firstSegment path ++ tailPath path = path := by
  have hpre : firstSegment path <+: path :=
    ( takeWhile_prefix _).trans ( take_prefix 12 path)
  have hseg := prefix_iff_eq_take.mp hpre
  rw [tailPath]
  nth_rewrite 1 [hseg]
  exact take_append_drop _ _

theorem slash_not_mem_firstSegment (path : List UInt8) : slash ∉ firstSegment path := by
  intro hmem
  have hne := mem_takeWhile_imp hmem
  simp at hne

theorem skipSlash_eq_nil (hrest : rest ≠ []) (h : skipSlash rest = []) : rest = [slash] := by
  rcases skipSlash_cases rest with ⟨path, rfl, heq⟩ | ⟨-, heq⟩
  · rw [← heq, h]
  · exact absurd (heq.symm.trans h) hrest

theorem endsWithSlash_skipSlash (h : skipSlash rest ≠ []) :
    endsWithSlash (skipSlash rest) = endsWithSlash rest := by
  rcases skipSlash_cases rest with ⟨path, rfl, heq⟩ | ⟨-, heq⟩
  · rw [heq] at h ⊢
    rw [endsWithSlash_slash h]
  · rw [heq]

theorem isEmpty_tailPath (hpath : path ≠ []) (hn : path.length < n + 1) :
    ((lookedUpFrom n (skipSlash (tailPath path))).isEmpty && !endsWithSlash path) =
      (tailPath path).isEmpty := by
  obtain ⟨n, rfl⟩ : ∃ k, n = k + 1 := ⟨n - 1, by have := length_pos_of_ne_nil hpath; omega⟩
  have hparts := firstSegment_append_tailPath path
  by_cases htail : tailPath path = []
  · rw [htail, append_nil] at hparts
    have hends : endsWithSlash path = false :=
      hparts ▸ endsWithSlash_of_not_mem (slash_not_mem_firstSegment path)
    rw [htail, hends]
    rfl
  · have hends : endsWithSlash path = endsWithSlash (tailPath path) := by
      conv_lhs => rw [← hparts]
      exact endsWithSlash_append htail _
    rw [hends, isEmpty_eq_false_iff.mpr htail]
    by_cases hskip : skipSlash (tailPath path) = []
    · rw [skipSlash_eq_nil htail hskip]
      exact Bool.and_false _
    · have hsome : (lookedUpFrom (n + 1) (skipSlash (tailPath path))).isEmpty = false := by
        rw [lookedUpFrom, isEmpty_eq_false_iff.mpr hskip]
        rfl
      rw [hsome, Bool.false_and]

theorem findLoop_eq (m : Mount) (fuel : ℕ) (hn : path.length < n) (d : ℕ) :
    findLoop m fuel n d path = lookUp m fuel (endsWithSlash path) (lookedUpFrom n path) d := by
  induction n generalizing path d with
  | zero => omega
  | succ n ih =>
    by_cases hpath : path = []
    · subst hpath
      rfl
    · have hempty : path.isEmpty = false := isEmpty_eq_false_iff.mpr hpath
      have hstop := isEmpty_tailPath hpath hn
      have hshort := length_skipSlash_tailPath hpath
      have hrest : ∀ d, findLoop m fuel n d (skipSlash (tailPath path)) =
          lookUp m fuel (endsWithSlash path) (lookedUpFrom n (skipSlash (tailPath path))) d := by
        intro d
        rw [ih (by omega) d]
        by_cases hskip : skipSlash (tailPath path) = []
        · rw [hskip]
          cases n <;> rfl
        · have htail : tailPath path ≠ [] := by
            intro h
            rw [h] at hskip
            exact hskip rfl
          have hends : endsWithSlash (skipSlash (tailPath path)) = endsWithSlash path := by
            rw [endsWithSlash_skipSlash hskip, ← endsWithSlash_append htail (firstSegment path),
              firstSegment_append_tailPath]
          rw [hends]
      have hnames : lookedUpFrom (n + 1) path =
          format83 (firstSegment path) :: lookedUpFrom n (skipSlash (tailPath path)) := by
        simp only [lookedUpFrom, hempty]
        rfl
      rw [hnames]
      simp only [findLoop, hempty, lookUp, hstop, ← hrest]
      rfl

/-- No component is longer than twelve characters, and no two slashes are next to each other. -/
def Plain (path : List UInt8) : Prop :=
  (∀ comp ∈ components path, comp.length ≤ 12) ∧ hasDoubleSlash path = false

/-- For every path, `fat32_mkdirp` and `fat32_find_cluster` go along the same names, the 8.3 forms
of the components, exactly if no component is longer than twelve characters and no slashes are
neighbours. -/
theorem paths_are_split_alike (path : List UInt8) :
    (∀ m block d, mkdirpLoop m block (path.length + 1) d path =
      makeNames m block (endsWithSlash path) (walkedNames path) d) ∧
    (∀ m fuel d, findCluster m fuel d path =
      lookUp m fuel (endsWithSlash path) (lookedUpNames path) d) ∧
    ((walkedNames path = lookedUpNames path ∧
      lookedUpNames path = (components path).map format83) ↔ Plain path) := by
  have hlength : (skipSlash path).length < path.length + 1 :=
    Nat.lt_succ_of_le (length_skipSlash_le path)
  refine ⟨fun m block d => mkdirpLoop_eq m block (Nat.lt_succ_self _) d, fun m fuel d => ?_, ?_⟩
  · rw [findCluster, findLoop_eq m fuel hlength d]
    by_cases hskip : skipSlash path = []
    · rw [lookedUpNames, hskip]
      rfl
    · rw [endsWithSlash_skipSlash hskip]
      rfl
  · constructor
    · rintro ⟨-, hnames⟩
      -- a further name for a long component or a slash would show in the number of names
      have hcount : (lookedUpNames path).length = (components (skipSlash path)).length := by
        rw [hnames, length_map, components_skipSlash]
      refine ⟨fun comp hcomp => ?_, ?_⟩
      · by_contra hlong
        rw [← components_skipSlash] at hcomp
        have hmore := (splits_lookedUpFrom.length_le _ _ hlength).2
          ⟨comp, hcomp, Nat.lt_of_not_le hlong⟩
        exact absurd hcount (Nat.ne_of_gt hmore)
      · by_contra hdouble
        have hmore := length_lt_lookedUpFrom _ _ hlength (mt tidy_skipSlash_iff.mp hdouble)
        exact absurd hcount (Nat.ne_of_gt hmore)
    · rintro ⟨hshort, hdouble⟩
      rw [walkedNames_eq hshort, lookedUpNames_eq hshort hdouble]
      exact ⟨rfl, rfl⟩

/-- A component of thirteen characters becomes two names, and a second slash an empty name. -/
theorem long_component_is_two_names :
    walkedNames [65, 65, 65, 65, 65, 65, 65, 65, 65, 65, 65, 65, 65] =
        [[65, 65, 65, 65, 65, 65, 65, 65, 32, 32, 32],
          [65, 32, 32, 32, 32, 32, 32, 32, 32, 32, 32]] ∧
      (components [65, 65, 65, 65, 65, 65, 65, 65, 65, 65, 65, 65, 65]).length = 1 ∧
      walkedNames [65, slash, slash, 66] ≠ lookedUpNames [65, slash, slash, 66] := by
  decide

end Taavi.Fat
