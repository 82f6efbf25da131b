import Taavi.X64.Tables

/-!
# Descending to a table

The entry that ends a walk is the leaf of its address. `__search_or_create_table` may make tables
and let the user through, which changes no leaf.
-/

namespace Taavi.X64

open Lib
open Paging (Machine pagePresent pageRw pageUser)

variable {α : Type*} {alloc : α → ℕ × α} {roots : ℕ → Prop} {s t : Machine α}
  {dir table i entry flags : ℕ} {path : List ℕ}

/-- The entry that ends the walk for an address, and whether its page is huge. -/
def leafOf (mem : ℕ → ℕ → ℕ) (dir virt : ℕ) : Option (ℕ × Bool) :=
  ((lookup tableOf hugeLeaf mem dir [pml4Index virt, pdpIndex virt] (pdIndex virt)).map
      (·, true)).or
    ((lookup tableOf pageLeaf mem dir [pml4Index virt, pdpIndex virt, pdIndex virt]
      (ptIndex virt)).map (·, false))

structure SameLeaves (roots : ℕ → Prop) (mem mem' : ℕ → ℕ → ℕ) : Prop where
  huge : ∀ dir path i, roots dir → path.length = 2 →
    lookup tableOf hugeLeaf mem' dir path i = lookup tableOf hugeLeaf mem dir path i
  page : ∀ dir path i, roots dir → path.length = 3 →
    lookup tableOf pageLeaf mem' dir path i = lookup tableOf pageLeaf mem dir path i

/-- The next answers of the memory manager, up to the first `0`, are frames that are in no
use. -/
def FreshAnswers (alloc : α → ℕ × α) : ℕ → α → (ℕ → Prop) → Prop
  | 0, _, _ => True
  | n + 1, pmm, used =>
    (alloc pmm).1 = 0 ∨
      (pageSize ∣ (alloc pmm).1 ∧ (alloc pmm).1 < 2 ^ 52 ∧ ¬used ((alloc pmm).1 / pageSize)) ∧
        FreshAnswers alloc n (alloc pmm).2 fun f => f = (alloc pmm).1 / pageSize ∨ used f

structure Kept (roots : ℕ → Prop) (s t : Machine α) : Prop where
  tables : Tables roots t
  kernel : t.kernelPageDir = s.kernelPageDir
  leaves : SameLeaves roots s.mem t.mem

theorem FreshAnswers.mono {n : ℕ} {pmm : α} {used used' : ℕ → Prop}
    (h : FreshAnswers alloc n pmm used) (hused : ∀ f, used' f → used f) :
    FreshAnswers alloc n pmm used' := by
  induction n generalizing pmm used used' with
  | zero => trivial
  | succ n ih =>
    rcases h with hzero | ⟨⟨halign, hlt, hunused⟩, hrest⟩
    · exact .inl hzero
    · refine .inr ⟨⟨halign, hlt, fun hf => hunused (hused _ hf)⟩, ih hrest ?_⟩
      rintro f (hf | hf)
      · exact .inl hf
      · exact .inr (hused f hf)

theorem FreshAnswers.pred {n : ℕ} {pmm : α} {used : ℕ → Prop}
    (h : FreshAnswers alloc (n + 1) pmm used) : FreshAnswers alloc n pmm used := by
  induction n generalizing pmm used with
  | zero => trivial
  | succ n ih =>
    rcases h with hzero | ⟨hfresh, hrest⟩
    · exact .inl hzero
    · exact .inr ⟨hfresh, ih hrest⟩

theorem SameLeaves.refl (roots : ℕ → Prop) (mem : ℕ → ℕ → ℕ) : SameLeaves roots mem mem :=
  ⟨fun _ _ _ _ _ => rfl, fun _ _ _ _ _ => rfl⟩

theorem SameLeaves.trans {mem mem' mem'' : ℕ → ℕ → ℕ} (h : SameLeaves roots mem mem')
    (h' : SameLeaves roots mem' mem'') : SameLeaves roots mem mem'' := by
  constructor
  · intro dir path i hdir hlen
    rw [h'.huge dir path i hdir hlen, h.huge dir path i hdir hlen]
  · intro dir path i hdir hlen
    rw [h'.page dir path i hdir hlen, h.page dir path i hdir hlen]

theorem SameLeaves.leafOf_eq {mem mem' : ℕ → ℕ → ℕ} (h : SameLeaves roots mem mem')
    (hdir : roots dir) (virt : ℕ) : leafOf mem' dir virt = leafOf mem dir virt := by
  unfold leafOf
  rw [h.huge _ _ _ hdir rfl, h.page _ _ _ hdir rfl]

theorem Kept.refl (h : Tables roots s) : Kept roots s s := ⟨h, rfl, SameLeaves.refl _ _⟩

theorem Tables.with_pmm (h : Tables roots s) (pmm : α) : Tables roots { s with pmm } :=
  { h with }

theorem Kept.trans {u : Machine α} (h : Kept roots s t) (h' : Kept roots t u) : Kept roots s u :=
  ⟨h'.tables, h'.kernel.trans h.kernel, h.leaves.trans h'.leaves⟩

theorem Tables.sameLeaves_store (h : Tables roots s) (hdir : roots dir) (hlen : path.length ≤ 2)
    (hwalk : walk tableOf s.mem dir path = some table) {next : ℕ}
    (hold : tableOf (s.mem table i) = some next) (hnew : tableOf entry = some next) :
    SameLeaves roots s.mem (storeWord s.mem table i entry) := by
  have hkeep : tableOf entry = tableOf (s.mem table i) ∨ 3 ≤ path.length :=
    Or.inl (hnew.trans hold.symm)
  constructor
  · intro dir' path' j hdir' hlen'
    rw [lookup_storeWord h.tree hdir (by omega) hwalk hkeep hdir' (by omega)]
    split
    · rename_i hhere
      obtain ⟨hwalk', rfl⟩ := hhere
      rw [hugeLeaf_of_tableOf hnew]
      simp [lookup, hwalk', hugeLeaf_of_tableOf hold]
    · rfl
  · intro dir' path' j hdir' hlen'
    rw [lookup_storeWord h.tree hdir (by omega) hwalk hkeep hdir' (by omega), if_neg]
    rintro ⟨hwalk', -⟩
    have hpath := h.tree.walk_eq_some hdir hdir' (by omega) (by omega) hwalk hwalk'
    rw [hpath] at hlen'
    omega

theorem Tables.sameLeaves_install (h : Tables roots s) (hdir : roots dir)
    (hlen : path.length ≤ 2) (hwalk : walk tableOf s.mem dir path = some table) {frame : ℕ}
    (hfresh : ¬Reached tableOf 3 roots s.mem frame)
    (hvac : (s.mem table i).testBit 0 = false) (hentry : tableOf entry = some frame) :
    SameLeaves roots s.mem (Lib.install s.mem table i frame 0 entry) := by
  have hnone := tableOf_of_absent hvac
  constructor
  · intro dir' path' j hdir' hlen'
    refine lookup_install h.tree hdir (by omega) hwalk hfresh tableOf_zero hnone hentry
      hugeLeaf_zero hdir' (by omega) ?_ j
    intro _
    rw [hugeLeaf_of_tableOf hentry, hugeLeaf_of_absent hvac]
  · intro dir' path' j hdir' hlen'
    refine lookup_install h.tree hdir (by omega) hwalk hfresh tableOf_zero hnone hentry
      pageLeaf_zero hdir' (by omega) ?_ j
    rintro rfl
    omega

variable {create : Bool} {n phys bits next : ℕ} {rest : List ℕ}

/-- What a call of `__search_or_create_table` gives, at the end of a path. -/
structure Found (alloc : α → ℕ × α) (roots : ℕ → Prop) (t : Machine α) (dir : ℕ) (path : List ℕ)
    (create : Bool) (flags n next : ℕ) : Prop where
  walk : walk tableOf t.mem dir path = some next
  user : flags.testBit 2 = true → UserPath t.mem dir path
  fresh : create = true → FreshAnswers alloc n t.pmm (Reached tableOf 3 roots t.mem)

def LowerIfUser (flags : ℕ) (path : List ℕ) : Prop :=
  flags.testBit 2 = true → ∀ i rest, path = i :: rest → ¬KernelIndex i

theorem LowerIfUser.init
    (h : LowerIfUser flags (path ++ i :: rest)) : LowerIfUser flags (path ++ [i]) := by
  intro huser k tail hpath
  refine h huser k (tail ++ rest) ?_
  rw [← List.cons_append, ← hpath, List.append_assoc, List.singleton_append]

theorem entryFlags_cases (flags : ℕ) :
    (if flags.testBit 2 then pageUserRw else pagePresent ||| pageRw) = 7 ∧ flags.testBit 2 = true ∨
      (if flags.testBit 2 then pageUserRw else pagePresent ||| pageRw) = 3 ∧
        flags.testBit 2 = false := by
  cases flags.testBit 2
  · exact .inr ⟨rfl, rfl⟩
  · exact .inl ⟨rfl, rfl⟩

theorem newEntry_bits (halign : pageSize ∣ phys) (hlt : phys < 2 ^ 52)
    (hbits : bits = 7 ∨ bits = 3) : tableOf (phys ||| bits) = some (phys / pageSize) ∧
      (phys ||| bits).testBit 1 = true ∧ (phys ||| bits).testBit 2 = bits.testBit 2 := by
  have hlow : ∀ bit, bit < 12 → (phys ||| bits).testBit bit = bits.testBit bit := by
    intro bit hbit
    rw [Nat.testBit_or, testBit_aligned halign hbit, Bool.false_or]
  have hmask : bits &&& pageFrameMask = 0 := by
    rcases hbits with rfl | rfl <;> decide
  refine ⟨tableOf_eq_some.mpr ⟨?_, ?_, frameOf_or halign hlt hmask⟩, ?_, hlow 2 (by omega)⟩
  · rw [hlow 0 (by omega)]
    rcases hbits with rfl | rfl <;> decide
  · rw [hlow 7 (by omega)]
    rcases hbits with rfl | rfl <;> decide
  · rw [hlow 1 (by omega)]
    rcases hbits with rfl | rfl <;> decide

theorem fits_pageUser {level : ℕ} (hold : tableOf entry = some next)
    (hwritable : level ≤ 2 → entry.testBit 1 = true) (hroot : level = 0 → ¬KernelIndex i) :
    Fits level i entry (entry ||| pageUser) := by
  obtain ⟨-, hhuge, -⟩ := tableOf_eq_some.mp hold
  constructor
  · exact .inl (tableOf_or_pageUser entry)
  · intro _ _
    rw [testBit_or_pageUser, hhuge]
    rfl
  · intro hlevel _
    rw [testBit_or_pageUser, hwritable hlevel, Bool.true_or]
  · intro _ _ _
    rw [testBit_or_pageUser]
    simp
  · intro hlevel hi
    exact absurd hi (hroot hlevel)

theorem UserPath.concat {mem : ℕ → ℕ → ℕ}
    (hlower : ∀ k rest, path ++ [i] = k :: rest → ¬KernelIndex k)
    (hwalk : walk tableOf mem dir path = some table) (hbit : (mem table i).testBit 2 = true) :
    UserPath mem dir (path ++ [i]) := by
  refine ⟨hlower, ?_⟩
  intro init j g hpath hinit
  obtain ⟨rfl, hj⟩ := List.append_inj' hpath rfl
  obtain rfl : i = j := by simpa using hj
  rw [hwalk] at hinit
  rwa [← Option.some.inj hinit]

section

variable (h : Tables roots s) (hdir : roots dir) (hlen : path.length ≤ 2)

include h hdir hlen

theorem Tables.giveUser
    (hlower : LowerIfUser flags (path ++ [i])) (huser : flags.testBit 2 = true)
    (hfound : Found alloc roots s dir path create flags (n + 1) table)
    (hold : tableOf (s.mem table i) = some next) :
    Kept roots s { s with mem := storeWord s.mem table i (s.mem table i ||| pageUser) } ∧
      Found alloc roots { s with mem := storeWord s.mem table i (s.mem table i ||| pageUser) } dir
        (path ++ [i]) create flags n next := by
  have hwalk := hfound.walk
  have hreach : Reached tableOf 2 roots s.mem table := ⟨dir, path, hdir, hlen, hwalk⟩
  have hfits : Fits path.length i (s.mem table i) (s.mem table i ||| pageUser) := by
    refine fits_pageUser hold (fun _ => h.writable table i _ hreach hold) ?_
    intro hzero
    refine hlower huser i [] ?_
    rw [List.length_eq_zero_iff.mp hzero, List.nil_append]
  have hsame : ∀ root path', roots root → path'.length ≤ 3 →
      Lib.walk tableOf (storeWord s.mem table i (s.mem table i ||| pageUser)) root path' =
        Lib.walk tableOf s.mem root path' := fun root path' hroot hlen' =>
    walk_storeWord h.tree hdir (by omega) hwalk hfits.same hroot hlen'
  refine ⟨⟨h.store hdir (by omega) hwalk hfits fun _ => hfound.user huser, rfl,
    h.sameLeaves_store hdir hlen hwalk hold ((tableOf_or_pageUser _).trans hold)⟩, ?_, ?_, ?_⟩
  · rw [hsame _ _ hdir (by simp; omega), walk_concat, hwalk, Option.bind_some, hold]
  · intro _
    refine UserPath.concat (hlower huser) ((hsame _ _ hdir (by omega)).trans hwalk) ?_
    dsimp only
    rw [storeWord_same, testBit_or_pageUser]
    simp
  · exact fun hcreate => (hfound.fresh hcreate).pred.mono fun f hf => (reached_congr hsame).mp hf

theorem Tables.newTable
    (hi : i < entriesPerTable) (hlower : LowerIfUser flags (path ++ [i]))
    (hfound : Found alloc roots s dir path true flags (n + 1) table)
    (hvac : (s.mem table i).testBit 0 = false) {pmm : α}
    (halloc : alloc s.pmm = (phys, pmm)) (hne : phys ≠ 0)
    (hbits : bits = 7 ∧ flags.testBit 2 = true ∨ bits = 3 ∧ flags.testBit 2 = false) :
    Kept roots s { s with mem := Lib.install s.mem table i (phys / pageSize) 0 (phys ||| bits), pmm } ∧
      Found alloc roots
        { s with mem := Lib.install s.mem table i (phys / pageSize) 0 (phys ||| bits), pmm } dir
        (path ++ [i]) true flags n (frameOf (phys ||| bits)) := by
  have hwalk := hfound.walk
  have hanswers := hfound.fresh rfl
  simp only [FreshAnswers, halloc] at hanswers
  obtain ⟨⟨halign, hlt, hunused⟩, hmore⟩ := hanswers.resolve_left hne
  obtain ⟨hentry, hwritable, huser⟩ := newEntry_bits halign hlt (hbits.imp And.left And.left)
  have hbit : bits.testBit 2 = flags.testBit 2 := by
    rcases hbits with ⟨rfl, hflags⟩ | ⟨rfl, hflags⟩ <;> rw [hflags] <;> decide
  rw [hbit] at huser
  have hnone := tableOf_of_absent hvac
  have hwalks : ∀ path', path'.length ≤ 3 →
      Lib.walk tableOf (Lib.install s.mem table i (phys / pageSize) 0 (phys ||| bits)) dir path' =
        if path' = path ++ [i] then some (phys / pageSize)
        else Lib.walk tableOf s.mem dir path' := by
    intro path' hlen'
    rw [walk_install h.tree hdir (by omega) hwalk hunused tableOf_zero hnone hentry hdir hlen']
    simp only [hwalk, true_and]
  refine ⟨⟨h.install hdir hlen hwalk hunused hi hvac hentry hwritable
    (fun hset => hfound.user (huser.symm.trans hset)) _, rfl,
    h.sameLeaves_install hdir hlen hwalk hunused hvac hentry⟩, ?_, ?_, ?_⟩
  · rw [hwalks _ (by simp; omega), if_pos rfl, (tableOf_eq_some.mp hentry).2.2]
  · intro hset
    have hpath : Lib.walk tableOf
        (Lib.install s.mem table i (phys / pageSize) 0 (phys ||| bits)) dir path = some table := by
      rw [hwalks _ (by omega), if_neg (by simp), hwalk]
    refine UserPath.concat (hlower hset) hpath ?_
    dsimp only
    rw [install_apply, if_pos ⟨rfl, rfl⟩, huser, hset]
  · exact fun _ => hmore.mono fun f hf =>
      reached_install h.tree hdir (by omega) hwalk hunused tableOf_zero hnone hentry hf

theorem Tables.search
    (hi : i < entriesPerTable) (hlower : LowerIfUser flags (path ++ [i]))
    (hfound : Found alloc roots s dir path create flags (n + 1) table) :
    Kept roots s (searchOrCreateTable alloc s table i create flags).1 ∧
      ∀ next, (searchOrCreateTable alloc s table i create flags).2 = some next →
        Found alloc roots (searchOrCreateTable alloc s table i create flags).1 dir (path ++ [i])
          create flags n next := by
  have hwalk := hfound.walk
  unfold searchOrCreateTable
  dsimp only
  split
  · rename_i hpres
    split
    · exact ⟨Kept.refl h, fun next hnext => by cases hnext⟩
    · rename_i hhuge
      have hold : tableOf (s.mem table i) = some (frameOf (s.mem table i)) :=
        tableOf_eq_some.mpr ⟨hpres, by simpa using hhuge, rfl⟩
      split
      · rename_i hneeds
        rw [Bool.and_eq_true] at hneeds
        obtain ⟨hkept, hnew⟩ := h.giveUser hdir hlen hlower hneeds.1 hfound hold
        refine ⟨hkept, fun next hnext => ?_⟩
        rw [← Option.some.inj hnext, frameOf_or_pageUser]
        exact hnew
      · rename_i hneeds
        refine ⟨Kept.refl h, fun next hnext => ?_⟩
        cases hnext
        refine ⟨?_, fun huser => UserPath.concat (hlower huser) hwalk ?_,
          fun hcreate => (hfound.fresh hcreate).pred⟩
        · rw [walk_concat, hwalk, Option.bind_some, hold]
        · simpa [huser] using hneeds
  · rename_i hpres
    have hvac : (s.mem table i).testBit 0 = false := by simpa using hpres
    split
    · exact ⟨Kept.refl h, fun next hnext => by cases hnext⟩
    · rename_i hcreate
      obtain rfl : create = true := by simpa using hcreate
      split
      · exact ⟨⟨h.with_pmm _, rfl, SameLeaves.refl _ _⟩, fun next hnext => by cases hnext⟩
      · rename_i hne
        obtain ⟨hkept, hnew⟩ := h.newTable hdir hlen hi hlower hfound hvac rfl hne
          (entryFlags_cases flags)
        refine ⟨hkept, fun next hnext => ?_⟩
        rw [← Option.some.inj hnext]
        exact hnew

end

theorem Tables.descend (h : Tables roots s) (hdir : roots dir)
    (hlen : path.length + rest.length ≤ 3) (hrest : ∀ i ∈ rest, i < entriesPerTable)
    (hlower : LowerIfUser flags (path ++ rest))
    (hfound : Found alloc roots s dir path create flags rest.length table) :
    Kept roots s (descend alloc create flags s table rest).1 ∧
      ∀ next, (descend alloc create flags s table rest).2 = some next →
        Found alloc roots (descend alloc create flags s table rest).1 dir (path ++ rest) create
          flags 0 next := by
  induction rest generalizing s path table with
  | nil =>
    refine ⟨Kept.refl h, fun next hnext => ?_⟩
    rw [← Option.some.inj hnext, List.append_nil]
    exact hfound
  | cons i rest ih =>
    rw [List.length_cons] at hlen hfound
    obtain ⟨hkept, hnew⟩ := h.search hdir (by omega) (hrest i (by simp)) hlower.init hfound
    unfold X64.descend
    split
    · rename_i t heq
      rw [heq] at hkept
      exact ⟨hkept, fun next hnext => by cases hnext⟩
    · rename_i t next heq
      rw [heq] at hkept hnew
      rw [← List.singleton_append, ← List.append_assoc]
      obtain ⟨hkept', hlast⟩ := ih hkept.tables (by simp; omega)
        (fun j hj => hrest j (by simp [hj])) (by simpa using hlower) (hnew next rfl)
      exact ⟨hkept.trans hkept', hlast⟩

end Taavi.X64
