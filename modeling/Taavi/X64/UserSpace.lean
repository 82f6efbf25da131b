import Taavi.Lib.Holdings
import Taavi.X64.Descent
import Taavi.X64.Frames
import Taavi.X64.Vmm

/-!
# The frames of a user address space on the x86_64

The tables remember the frames that were taken for an address space, each at the end of one path of
indices.
-/

namespace Taavi.X64

open Lib X64.Pmm List
open Paging (Machine pagePresent pageUser)

def frameIn (entry : ℕ) : Option ℕ := if entry.testBit 0 then some (frameOf entry) else none

/-- The entries that the user half of a directory is made of. -/
def UserEntry (dir frame i : ℕ) : Prop :=
  i < entriesPerTable ∧ (frame = dir → i < kernelPdIndexStart)

instance (dir frame i : ℕ) : Decidable (UserEntry dir frame i) :=
  inferInstanceAs (Decidable (_ ∧ _))

/-- The memory as the user half of a directory sees it. All other entries are empty. -/
def userMem (dir : ℕ) (mem : ℕ → ℕ → ℕ) (frame i : ℕ) : ℕ :=
  if UserEntry dir frame i then mem frame i else 0

/-- The frame at the end of a path of the user half. A path of four indices ends at a page. -/
def heldFrame (mem : ℕ → ℕ → ℕ) (dir : ℕ) (path : List ℕ) : Option ℕ :=
  if path.length ≤ 4 then walk frameIn (userMem dir mem) dir path else none

def inUseBut (pending : Option ℕ) (pmm : Pmm.State) (f : ℕ) : Bool :=
  decide (pending ≠ some f) && pmmTestBit pmm f

/-- The frame is taken for the address space, and no path leads to it yet. -/
structure Pending (s : Machine Pmm.State) (t : Machine Pmm.State) (frame : ℕ) : Prop where
  nonzero : frame ≠ 0
  lt : frame < t.pmm.maxPages
  used : pmmTestBit t.pmm frame = true
  new : pmmTestBit s.pmm frame = false
  clear : t.mem frame = fun _ => 0

/-- The directory `dir` of the machine `t` remembers what was taken since `s`, but for one frame. -/
structure UserSpace (s : Machine Pmm.State) (dir : ℕ) (pending : Option ℕ)
    (t : Machine Pmm.State) : Prop where
  holdings : Holdings (heldFrame t.mem dir) (pmmTestBit s.pmm) (inUseBut pending t.pmm)
  memory : ∀ frame, pmmTestBit s.pmm frame = true → t.mem frame = s.mem frame
  bound : ∀ path frame, heldFrame t.mem dir path = some frame → frame ≠ 0 ∧ frame < t.pmm.maxPages
  steady : Steady t.pmm
  maxPages : t.pmm.maxPages = s.pmm.maxPages
  pending : ∀ frame, pending = some frame → Pending s t frame

variable {s t u : Machine Pmm.State} {mem : ℕ → ℕ → ℕ} {dir virt frame table i flags entry : ℕ}
  {path : List ℕ} {pending : Option ℕ}

theorem frameIn_eq_some {next : ℕ} :
    frameIn entry = some next ↔ entry.testBit 0 = true ∧ frameOf entry = next := by
  unfold frameIn
  split_ifs with h <;> simp [h]

theorem frameIn_eq_none : frameIn entry = none ↔ entry.testBit 0 = false := by
  unfold frameIn
  split_ifs with h <;> simp [h]

@[simp] theorem frameIn_zero : frameIn 0 = none := by simp [frameIn]

theorem frameIn_or_pageUser (entry : ℕ) : frameIn (entry ||| pageUser) = frameIn entry := by
  unfold frameIn
  rw [frameOf_or_pageUser, testBit_or_pageUser]
  simp

theorem frameIn_or {phys bits : ℕ} (halign : pageSize ∣ phys) (hlt : phys < 2 ^ 52)
    (hmask : bits &&& pageFrameMask = 0) (hbits : bits.testBit 0 = true) :
    frameIn (phys ||| bits) = some (phys / pageSize) := by
  refine frameIn_eq_some.mpr ⟨?_, frameOf_or halign hlt hmask⟩
  rw [Nat.testBit_or, hbits, Bool.or_true]

/-- No frame is at the end of two paths. -/
def Apart (mem : ℕ → ℕ → ℕ) (dir : ℕ) : Prop :=
  ∀ ⦃a b frame⦄, heldFrame mem dir a = some frame → heldFrame mem dir b = some frame → a = b

theorem heldFrame_of_le (hlen : path.length ≤ 4) :
    heldFrame mem dir path = walk frameIn (userMem dir mem) dir path := if_pos hlen

theorem length_le_of_heldFrame (h : heldFrame mem dir path = some frame) : path.length ≤ 4 := by
  unfold heldFrame at h
  split_ifs at h with hlen
  exact hlen

theorem Apart.tree (h : Apart mem dir) :
    TableTree frameIn 4 (· = dir) (fun _ => False) (userMem dir mem) := by
  rintro root root' path path' table rfl rfl hlen hlen' hwalk hwalk'
  exact ⟨h ((heldFrame_of_le hlen).trans hwalk) ((heldFrame_of_le hlen').trans hwalk'),
    .inl rfl⟩

theorem not_reached (h : ∀ path, heldFrame mem dir path ≠ some frame) :
    ¬Reached frameIn 4 (· = dir) (userMem dir mem) frame := by
  rintro ⟨root, path, rfl, hlen, hwalk⟩
  exact h path ((heldFrame_of_le hlen).trans hwalk)

theorem heldFrame_concat (hlen : path.length ≤ 3) (hpath : heldFrame mem dir path = some table)
    (hi : UserEntry dir table i) : heldFrame mem dir (path ++ [i]) = frameIn (mem table i) := by
  rw [heldFrame_of_le (by omega)] at hpath
  rw [heldFrame_of_le (by simp; omega), walk_concat, hpath, Option.bind_some, userMem, if_pos hi]

theorem heldFrame_assign (h : ∀ path, heldFrame mem dir path ≠ some frame) (content : ℕ → ℕ)
    (path : List ℕ) : heldFrame (assign mem frame content) dir path = heldFrame mem dir path := by
  unfold heldFrame
  split_ifs with hlen
  · refine walk_of_agree (not_reached h) (fun g hg => ?_) rfl hlen
    funext k
    rw [userMem, userMem, assign_of_ne _ _ hg]
  · rfl

theorem heldFrame_storeWord (hsame : frameIn entry = frameIn (mem table i)) (path : List ℕ) :
    heldFrame (storeWord mem table i entry) dir path = heldFrame mem dir path := by
  unfold heldFrame
  split_ifs
  · refine walk_congr (fun f k => ?_) dir path
    unfold userMem
    split_ifs
    · rw [storeWord_apply]
      split_ifs with hhere
      · rw [hsame, hhere.1, hhere.2]
      · rfl
    · rfl
  · rfl

theorem userMem_install (hi : UserEntry dir table i) :
    userMem dir (install mem table i frame 0 entry) =
      install (userMem dir mem) table i frame 0 entry := by
  funext f k
  rw [userMem, install_apply, install_apply, userMem]
  by_cases hhere : f = table ∧ k = i
  · rw [if_pos hhere, if_pos hhere, hhere.1, hhere.2, if_pos hi]
  · rw [if_neg hhere, if_neg hhere]
    split_ifs <;> rfl

theorem Apart.heldFrame_install (h : Apart mem dir) (hlen : path.length ≤ 3)
    (hpath : heldFrame mem dir path = some table) (hi : UserEntry dir table i)
    (habs : frameIn (mem table i) = none) (hentry : frameIn entry = some frame)
    (hfresh : ∀ path, heldFrame mem dir path ≠ some frame) (path' : List ℕ) :
    heldFrame (install mem table i frame 0 entry) dir path' =
      if path' = path ++ [i] then some frame else heldFrame mem dir path' := by
  have hwalk : walk frameIn (userMem dir mem) dir path = some table :=
    (heldFrame_of_le (by omega)).symm.trans hpath
  by_cases hlen' : path'.length ≤ 4
  · have hvac : frameIn (userMem dir mem table i) = none := by rw [userMem, if_pos hi, habs]
    rw [heldFrame_of_le hlen', heldFrame_of_le hlen', userMem_install hi,
      walk_install h.tree rfl (by omega) hwalk (not_reached hfresh) frameIn_zero hvac hentry rfl
        hlen']
    simp only [hwalk, true_and]
  · have hne : path' ≠ path ++ [i] := by
      rintro rfl
      simp only [length_append, length_singleton] at hlen'
      omega
    rw [if_neg hne, heldFrame, if_neg hlen', heldFrame, if_neg hlen']

theorem UserSpace.apart (h : UserSpace s dir pending t) : Apart t.mem dir := h.holdings.unique

theorem UserSpace.ne_of_held (h : UserSpace s dir pending t)
    (hpath : heldFrame t.mem dir path = some frame) {f : ℕ} (hused : pmmTestBit s.pmm f = true) :
    f ≠ frame := by
  rintro rfl
  rw [h.holdings.not_before hpath] at hused
  cases hused

theorem inUseBut_pending (frame : ℕ) (pmm : Pmm.State) : inUseBut (some frame) pmm frame = false := by
  simp [inUseBut]

theorem inUseBut_of_free {pmm : Pmm.State} (hfree : pmmTestBit pmm frame = false) :
    inUseBut pending pmm frame = false := by
  rw [inUseBut, hfree, Bool.and_false]

theorem UserSpace.take (h : UserSpace s dir none t) (hgiven : Given t.pmm frame) :
    UserSpace s dir (some frame) (clearFrame { t with pmm := (pmmAlloc t.pmm).2 } frame) := by
  have hnot : ∀ path, heldFrame t.mem dir path ≠ some frame :=
    h.holdings.ne_of_free (inUseBut_of_free hgiven.free)
  have hheld : heldFrame (assign t.mem frame fun _ => 0) dir = heldFrame t.mem dir :=
    funext (heldFrame_assign hnot _)
  have hnew : pmmTestBit s.pmm frame = false := by
    by_contra hused
    have hkept := h.holdings.kept frame (by simpa using hused)
    rw [inUseBut_of_free hgiven.free] at hkept
    cases hkept
  have hnow : inUseBut (some frame) (pmmAlloc t.pmm).2 = inUseBut none t.pmm := by
    funext f
    by_cases hf : f = frame
    · rw [hf, inUseBut_pending, inUseBut_of_free hgiven.free]
    · simp [inUseBut, hgiven.other hf, Ne.symm hf]
  refine ⟨?_, ?_, ?_, h.steady.alloc, ?_, ?_⟩
  · show Holdings (heldFrame (assign t.mem frame fun _ => 0) dir) _
      (inUseBut (some frame) (pmmAlloc t.pmm).2)
    rw [hheld, hnow]
    exact h.holdings
  · intro f hf
    have hne : f ≠ frame := by
      rintro rfl
      rw [hnew] at hf
      cases hf
    exact (assign_of_ne t.mem _ hne).trans (h.memory f hf)
  · intro path f hpath
    have hpath' : heldFrame t.mem dir path = some f := hheld ▸ hpath
    exact ⟨(h.bound path f hpath').1, h.steady.maxPages_alloc.symm ▸ (h.bound path f hpath').2⟩
  · exact h.steady.maxPages_alloc.trans h.maxPages
  · intro f hf
    cases hf
    exact ⟨hgiven.nonzero, h.steady.maxPages_alloc.symm ▸ hgiven.lt, hgiven.used, hnew,
      assign_same ..⟩

theorem UserSpace.pending_ne (h : UserSpace s dir pending t)
    (hpath : heldFrame t.mem dir path = some table) (hf : pending = some frame) : frame ≠ table := by
  rintro rfl
  have hused := h.holdings.used hpath
  rw [hf, inUseBut_pending] at hused
  cases hused

theorem UserSpace.rewrite (h : UserSpace s dir pending t)
    (hpath : heldFrame t.mem dir path = some table) (hsame : frameIn entry = frameIn (t.mem table i)) :
    UserSpace s dir pending { t with mem := storeWord t.mem table i entry } := by
  have hheld : heldFrame (storeWord t.mem table i entry) dir = heldFrame t.mem dir :=
    funext (heldFrame_storeWord hsame)
  refine ⟨?_, ?_, ?_, h.steady, h.maxPages, ?_⟩
  · show Holdings (heldFrame (storeWord t.mem table i entry) dir) _ _
    rw [hheld]
    exact h.holdings
  · intro f hf
    rw [← h.memory f hf]
    funext k
    exact storeWord_of_ne _ _ _ _ (h.ne_of_held hpath hf)
  · intro path f hpath
    exact h.bound path f (hheld ▸ hpath)
  · intro f hf
    have hpend := h.pending f hf
    refine ⟨hpend.nonzero, hpend.lt, hpend.used, hpend.new, ?_⟩
    rw [← hpend.clear]
    funext k
    exact storeWord_of_ne _ _ _ _ (h.pending_ne hpath hf)

section

variable (hlen : path.length ≤ 3) (hpath : heldFrame t.mem dir path = some table)
  (hi : UserEntry dir table i)
include hlen hpath hi

theorem UserSpace.install (h : UserSpace s dir pending t)
    (habs : frameIn (t.mem table i) = none) (hentry : frameIn entry = some frame)
    (hnonzero : frame ≠ 0) (hlt : frame < t.pmm.maxPages)
    (hfree : inUseBut pending t.pmm frame = false) {pending' : Option ℕ} {pmm : Pmm.State}
    (hused : inUseBut pending' pmm frame = true)
    (hother : ∀ g, g ≠ frame → inUseBut pending' pmm g = inUseBut pending t.pmm g)
    (hstead : Steady pmm) (hmax : pmm.maxPages = t.pmm.maxPages)
    (hpend : ∀ f, pending' = some f → pending = some f ∧ f ≠ frame ∧ pmmTestBit pmm f = true) :
    UserSpace s dir pending' { t with mem := install t.mem table i frame 0 entry, pmm } := by
  have hfresh := h.holdings.ne_of_free hfree
  have hheld := h.apart.heldFrame_install hlen hpath hi habs hentry hfresh
  have hempty : heldFrame t.mem dir (path ++ [i]) = none :=
    (heldFrame_concat hlen hpath hi).trans habs
  -- what the memory is outside the table and the frame
  have hmem : ∀ f, f ≠ table → f ≠ frame → Lib.install t.mem table i frame 0 entry f = t.mem f := by
    intro f htable hframe
    funext k
    rw [install_apply, if_neg (fun hhere => htable hhere.1), if_neg hframe]
  refine ⟨?_, ?_, ?_, hstead, hmax.trans h.maxPages, ?_⟩
  · refine h.holdings.add hfree hempty ?_ ?_ hused hother
    · rw [hheld, if_pos rfl]
    · intro path' hne
      rw [hheld, if_neg hne]
  · intro f hf
    have hframe : f ≠ frame := by
      rintro rfl
      rw [h.holdings.kept f hf] at hfree
      cases hfree
    exact (hmem f (h.ne_of_held hpath hf) hframe).trans (h.memory f hf)
  · intro path' f hpath'
    rw [hheld] at hpath'
    dsimp only
    rw [hmax]
    split_ifs at hpath'
    · cases hpath'
      exact ⟨hnonzero, hlt⟩
    · exact h.bound path' f hpath'
  · intro f hf
    obtain ⟨hf', hne, hbit⟩ := hpend f hf
    have hold := h.pending f hf'
    exact ⟨hold.nonzero, hmax.symm ▸ hold.lt, hbit, hold.new,
      (hmem f (h.pending_ne hpath hf') hne).trans hold.clear⟩

theorem UserSpace.newTable (h : UserSpace s dir pending t)
    (habs : frameIn (t.mem table i) = none) (hzero : (pmmAlloc t.pmm).1 ≠ 0) {bits : ℕ}
    (hmask : bits &&& pageFrameMask = 0) (hbit : bits.testBit 0 = true) :
    let u := { t with
      mem := Lib.install t.mem table i ((pmmAlloc t.pmm).1 / pageSize) 0 ((pmmAlloc t.pmm).1 ||| bits)
      pmm := (pmmAlloc t.pmm).2 }
    UserSpace s dir pending u ∧
      heldFrame u.mem dir (path ++ [i]) = some (frameOf ((pmmAlloc t.pmm).1 ||| bits)) := by
  obtain ⟨frame, hgiven⟩ := h.steady.exists_given hzero
  have hentry : frameIn (frame * pageSize ||| bits) = some frame := by
    rw [frameIn_or (Nat.dvd_mul_left _ _) (hgiven.addr_lt h.steady) hmask hbit,
      Nat.mul_div_cancel frame (by decide)]
  have hne : pending ≠ some frame := by
    intro heq
    have hused := (h.pending frame heq).used
    rw [hgiven.free] at hused
    cases hused
  have hfree : inUseBut pending t.pmm frame = false := inUseBut_of_free hgiven.free
  rw [hgiven.div, hgiven.addr]
  constructor
  · refine h.install hlen hpath hi habs hentry hgiven.nonzero hgiven.lt hfree ?_ ?_
      h.steady.alloc h.steady.maxPages_alloc ?_
    · rw [inUseBut, hgiven.used, decide_eq_true hne, Bool.true_and]
    · intro g hg
      rw [inUseBut, inUseBut, hgiven.other hg]
    · intro f hf
      exact ⟨hf, fun heq => hne (heq ▸ hf), h.steady.used_alloc (h.pending f hf).used⟩
  · rw [h.apart.heldFrame_install hlen hpath hi habs hentry (h.holdings.ne_of_free hfree),
      if_pos rfl, (frameIn_eq_some.mp hentry).2]

theorem UserSpace.enter (h : UserSpace s dir (some frame) t)
    (habs : frameIn (t.mem table i) = none) (hentry : frameIn entry = some frame) :
    UserSpace s dir none { t with mem := storeWord t.mem table i entry } := by
  have hpend := h.pending frame rfl
  have hclear : assign t.mem frame (fun _ => 0) = t.mem := by
    funext f
    by_cases hf : f = frame
    · rw [hf, assign_same, hpend.clear]
    · rw [assign_of_ne _ _ hf]
  have hmem : storeWord t.mem table i entry = Lib.install t.mem table i frame 0 entry := by
    rw [Lib.install, hclear]
  rw [hmem]
  refine h.install hlen hpath hi habs hentry hpend.nonzero hpend.lt
    (inUseBut_pending frame t.pmm) ?_ ?_ h.steady rfl nofun
  · rw [inUseBut, hpend.used]
    rfl
  · intro g hg
    simp [inUseBut, Ne.symm hg]

theorem UserSpace.search (h : UserSpace s dir pending t) {next : ℕ}
    (hsearch : searchOrCreateTable pmmAlloc t table i true flags = (u, some next)) :
    UserSpace s dir pending u ∧ heldFrame u.mem dir (path ++ [i]) = some next := by
  unfold searchOrCreateTable at hsearch
  dsimp only at hsearch
  split_ifs at hsearch with hpres hhuge huser hcreate hzero
  · cases (Prod.mk.inj hsearch).2
  · obtain ⟨rfl, hnext⟩ := Prod.mk.inj hsearch
    have hsame : frameIn (t.mem table i ||| pageUser) = frameIn (t.mem table i) :=
      frameIn_or_pageUser _
    refine ⟨h.rewrite hpath hsame, ?_⟩
    rw [heldFrame_storeWord hsame, heldFrame_concat hlen hpath hi, ← hsame]
    refine frameIn_eq_some.mpr ⟨?_, Option.some.inj hnext⟩
    rw [testBit_or_pageUser, hpres, Bool.true_or]
  · obtain ⟨rfl, hnext⟩ := Prod.mk.inj hsearch
    refine ⟨h, (heldFrame_concat hlen hpath hi).trans ?_⟩
    exact frameIn_eq_some.mpr ⟨hpres, Option.some.inj hnext⟩
  · exact absurd hcreate (by decide)
  · cases (Prod.mk.inj hsearch).2
  -- the new entry with and without the user's bit
  all_goals
    obtain ⟨rfl, hnext⟩ := Prod.mk.inj hsearch
    rw [← Option.some.inj hnext]
    exact h.newTable hlen hpath hi (frameIn_eq_none.mpr (by simpa using hpres)) hzero
      (by decide) (by decide)

end

/-- The first index of a path is one of the user half, and all of them are indices of tables. -/
def UserPathFrom (path rest : List ℕ) : Prop :=
  (∀ i ∈ rest, i < entriesPerTable) ∧ (path = [] → ∀ i ∈ rest.head?, i < kernelPdIndexStart)

theorem UserSpace.descend (h : UserSpace s dir pending t) {rest : List ℕ}
    (hlen : path.length + rest.length ≤ 4) (hpath : heldFrame t.mem dir path = some table)
    (hrest : UserPathFrom path rest) {next : ℕ}
    (hdescend : descend pmmAlloc true flags t table rest = (u, some next)) :
    UserSpace s dir pending u ∧ heldFrame u.mem dir (path ++ rest) = some next := by
  induction rest generalizing t path table with
  | nil =>
    obtain ⟨rfl, hnext⟩ := Prod.mk.inj hdescend
    rw [append_nil, ← Option.some.inj hnext]
    exact ⟨h, hpath⟩
  | cons i rest ih =>
    rw [length_cons] at hlen
    have hi : UserEntry dir table i := by
      refine ⟨hrest.1 i mem_cons_self, ?_⟩
      rintro rfl
      have hnil : path = [] := h.apart hpath (show heldFrame t.mem table [] = some table from rfl)
      exact hrest.2 hnil i rfl
    unfold X64.descend at hdescend
    split at hdescend
    · cases (Prod.mk.inj hdescend).2
    · rename_i v next' heq
      obtain ⟨hv, hpath'⟩ := h.search (by omega) hpath hi heq
      have hrest' : UserPathFrom (path ++ [i]) rest :=
        ⟨fun j hj => hrest.1 j (mem_cons_of_mem i hj), fun hnil => by simp at hnil⟩
      have hnext := ih hv (by simp; omega) hpath' hrest' hdescend
      rwa [append_assoc, singleton_append] at hnext

/-- The flags leave the bits of the frame alone. -/
def ProperFlags (flags : ℕ) : Prop := flags &&& pageFrameMask = 0

instance (flags : ℕ) : Decidable (ProperFlags flags) := inferInstanceAs (Decidable (_ = _))

theorem userPathFrom_of_lower (hvirt : virt < 2 ^ 47) :
    UserPathFrom [] [pml4Index virt, pdpIndex virt, pdIndex virt] := by
  refine ⟨?_, ?_⟩
  · intro i hi
    simp only [mem_cons, not_mem_nil, or_false] at hi
    rcases hi with rfl | rfl | rfl <;> exact tableIndex_lt ..
  · rintro - i hi
    obtain rfl : pml4Index virt = i := by simpa using hi
    unfold pml4Index tableIndex entriesPerTable kernelPdIndexStart
    omega

theorem UserSpace.mapPage (h : UserSpace s dir none t) (hgiven : Given t.pmm frame)
    (hvirt : virt < 2 ^ 47) (hflags : ProperFlags flags)
    (hmap : pagingMap pmmAlloc (clearFrame { t with pmm := (pmmAlloc t.pmm).2 } frame) dir virt
      (frame * pageSize) flags = (u, true)) :
    UserSpace s dir none u := by
  have htaken := h.take hgiven
  unfold pagingMap at hmap
  split_ifs at hmap
  iterate 3 cases (Prod.mk.inj hmap).2
  split at hmap
  · cases (Prod.mk.inj hmap).2
  · rename_i v ptTable heq
    obtain ⟨hv, hpath⟩ := htaken.descend (by simp) (show heldFrame _ dir [] = some dir from rfl)
      (userPathFrom_of_lower hvirt) heq
    rw [nil_append] at hpath
    split_ifs at hmap with hpres
    · cases (Prod.mk.inj hmap).2
    · obtain ⟨rfl, -⟩ := Prod.mk.inj hmap
      have hentry : frameIn (frame * pageSize ||| flags ||| pagePresent) = some frame := by
        rw [Nat.lor_assoc, frameIn_or (Nat.dvd_mul_left _ _) (hgiven.addr_lt h.steady),
          Nat.mul_div_cancel frame (by decide)]
        · rw [Nat.and_or_distrib_right, hflags]
          decide
        · rw [Nat.testBit_or]
          simp [pagePresent]
      have hi : UserEntry dir ptTable (ptIndex virt) := by
        refine ⟨tableIndex_lt .., ?_⟩
        rintro rfl
        cases hv.apart hpath (show heldFrame v.mem ptTable [] = some ptTable from rfl)
      exact hv.enter (by simp) hpath hi (frameIn_eq_none.mpr (by simpa using hpres)) hentry

theorem UserSpace.vmmAllocLoop (virtStart : ℕ) {count : ℕ} (h : UserSpace s dir none t)
    (hend : virt + count * pageSize ≤ 2 ^ 47) (hflags : ProperFlags flags)
    (hok : X64.vmmAllocLoop pmmAlloc pmmFree dir virtStart flags count t virt = (u, true)) :
    UserSpace s dir none u := by
  induction count generalizing t virt with
  | zero =>
    obtain ⟨rfl, -⟩ := Prod.mk.inj hok
    exact h
  | succ count ih =>
    unfold X64.vmmAllocLoop at hok
    dsimp only at hok
    split_ifs at hok with haddr
    · cases (Prod.mk.inj hok).2
    obtain ⟨frame, hgiven⟩ := h.steady.exists_given haddr
    have hvirt : virt < 2 ^ 47 := by
      unfold pageSize at hend
      omega
    have hnext : (virt + pageSize) % 2 ^ 64 = virt + pageSize := by
      unfold pageSize
      omega
    split at hok
    · rename_i v hmap
      rw [hgiven.div, hgiven.addr] at hmap
      rw [hnext] at hok
      exact ih (h.mapPage hgiven hvirt hflags hmap) (by unfold pageSize at *; omega) hok
    · cases (Prod.mk.inj hok).2

/-- A call of `vmm_alloc`. -/
structure VmmRequest where
  virt : ℕ
  size : ℕ
  flags : ℕ

/-- The range of a call is in the lower half, and the flags are flags. -/
structure VmmRequest.Proper (r : VmmRequest) : Prop where
  lower : r.virt + r.size ≤ 2 ^ 47
  flags : ProperFlags r.flags

def AllocStep (dir : ℕ) (s : Machine Pmm.State) (r : VmmRequest) (t : Machine Pmm.State) : Prop :=
  vmmAlloc pmmAlloc pmmFree s dir r.virt r.size r.flags = (t, true)

theorem UserSpace.vmmAlloc (h : UserSpace s dir none t) {r : VmmRequest} (hr : r.Proper)
    (hstep : AllocStep dir t r u) : UserSpace s dir none u := by
  unfold AllocStep X64.vmmAlloc at hstep
  split_ifs at hstep with hbad
  · cases (Prod.mk.inj hstep).2
  · have hlower := hr.lower
    refine h.vmmAllocLoop r.virt ?_ hr.flags hstep
    simp only [not_or, not_not] at hbad
    obtain ⟨-, -, halign⟩ := hbad
    unfold pagesOf
    unfold pageSize at *
    omega

theorem UserSpace.vmmAllocs (h : UserSpace s dir none t) {rs : List VmmRequest}
    (hrun : Run (AllocStep dir) t rs u) (hproper : ∀ r ∈ rs, r.Proper) :
    UserSpace s dir none u := by
  induction hrun with
  | nil => exact h
  | cons hstep hrun ih =>
    exact ih (h.vmmAlloc (hproper _ mem_cons_self) hstep)
      fun r hr => hproper r (mem_cons_of_mem _ hr)

end Taavi.X64
