import Mathlib.Data.List.Nodup
import Taavi.X64.Pmm

/-!
# The memory manager of the x86_64 after its initialization

For disjoint usable regions of whole pages, `pmm_init` counts each page once and those of the bitmap
once: `free_pages` is the number of clear bits.
-/

namespace Taavi.X64.Pmm

open Lib List

/-- The usable regions are disjoint and have whole pages, whose numbers fit into 32 bits. -/
structure WellFormed (regions : List MemRegion) : Prop where
  aligned : ∀ r ∈ regions, r.type = .usable → pageSize ∣ r.base ∧ pageSize ∣ r.length
  disjoint : regions.Pairwise fun r r' => r.type = .usable → r'.type = .usable →
    r.base + r.length ≤ r'.base ∨ r'.base + r'.length ≤ r.base
  few : ∀ r ∈ regions, r.type = .usable ∨ r.type = .reclaimable →
    (r.base + r.length) / pageSize < 2 ^ 32

/-- The number of free pages is right, and it is a 32-bit number. -/
structure FreeCounted (s : State) : Prop where
  few : s.maxPages < 2 ^ 32
  free : s.freePages = countClear s.bitmap s.maxPages

/-- What holds of the memory manager after `pmm_init` and after every call. -/
structure Balanced (s : State) : Prop extends FreeCounted s where
  sum : s.usedPages + s.freePages = s.maxPages
  cursor : s.lastFound ≤ s.maxPages
  below : ∀ page < s.lastFound, pmmTestBit s page = true
  first : pmmTestBit s 0 = true

variable {s : State} {regions : List MemRegion} {r : MemRegion} {page n : ℕ} {l : List ℕ}

theorem FreeCounted.clearPage (h : FreeCounted s) (hpage : page < s.maxPages)
    (hused : pmmTestBit s page = true) : FreeCounted (s.clearPage page) := by
  have hset : countSet s.bitmap s.maxPages = countSet (clearBit s.bitmap page) s.maxPages + 1 :=
    countSet_clearBit (by decide) hpage hused
  have hsum := countSet_add_countClear s.bitmap s.maxPages
  have hsum' := countSet_add_countClear (clearBit s.bitmap page) s.maxPages
  have hfew := h.few
  have hfree := h.free
  refine ⟨hfew, ?_⟩
  show (s.freePages + 1) % 2 ^ 32 = countClear (clearBit s.bitmap page) s.maxPages
  omega

theorem FreeCounted.takePage (h : FreeCounted s) (hpage : page < s.maxPages)
    (hclear : pmmTestBit s page = false) : FreeCounted (s.takePage page) := by
  have hset : countSet (setBit s.bitmap page) s.maxPages = countSet s.bitmap s.maxPages + 1 :=
    countSet_setBit (by decide) hpage hclear
  have hsum := countSet_add_countClear s.bitmap s.maxPages
  have hsum' := countSet_add_countClear (setBit s.bitmap page) s.maxPages
  have hfew := h.few
  have hfree := h.free
  refine ⟨hfew, ?_⟩
  show (s.freePages + (2 ^ 32 - 1)) % 2 ^ 32 = countClear (setBit s.bitmap page) s.maxPages
  omega

theorem FreeCounted.clearPages (h : FreeCounted s) (hnodup : l.Nodup)
    (hl : ∀ page ∈ l, page < s.maxPages ∧ pmmTestBit s page = true) :
    FreeCounted (l.foldl State.clearPage s) := by
  induction l generalizing s with
  | nil => exact h
  | cons page l ih =>
    obtain ⟨hnot, hnodup⟩ := nodup_cons.mp hnodup
    obtain ⟨hpage, hused⟩ := hl page mem_cons_self
    refine ih (h.clearPage hpage hused) hnodup fun q hq => ?_
    obtain ⟨hqmax, hqused⟩ := hl q (mem_cons_of_mem page hq)
    have hne : q ≠ page := fun heq => hnot (heq ▸ hq)
    refine ⟨hqmax, (testBit_clearBit (by decide) s.bitmap page q).trans ?_⟩
    rw [decide_eq_true hne, Bool.true_and]
    exact hqused

theorem FreeCounted.takePages (h : FreeCounted s) (hnodup : l.Nodup)
    (hl : ∀ page ∈ l, page < s.maxPages ∧ pmmTestBit s page = false) :
    FreeCounted (l.foldl State.takePage s) := by
  induction l generalizing s with
  | nil => exact h
  | cons page l ih =>
    obtain ⟨hnot, hnodup⟩ := nodup_cons.mp hnodup
    obtain ⟨hpage, hclear⟩ := hl page mem_cons_self
    refine ih (h.takePage hpage hclear) hnodup fun q hq => ?_
    obtain ⟨hqmax, hqclear⟩ := hl q (mem_cons_of_mem page hq)
    have hne : q ≠ page := fun heq => hnot (heq ▸ hq)
    refine ⟨hqmax, (testBit_setBit (by decide) s.bitmap page q).trans ?_⟩
    rw [decide_eq_false hne, Bool.false_or]
    exact hqclear

theorem clearPages_fields (l : List ℕ) (s : State) :
    (l.foldl State.clearPage s).maxPages = s.maxPages ∧
      (l.foldl State.clearPage s).lastFound = s.lastFound ∧
      (l.foldl State.clearPage s).bitmap = l.foldl clearBit s.bitmap := by
  induction l generalizing s with
  | nil => exact ⟨rfl, rfl, rfl⟩
  | cons page l ih => exact ih _

theorem takePages_fields (l : List ℕ) (s : State) :
    (l.foldl State.takePage s).maxPages = s.maxPages ∧
      (l.foldl State.takePage s).lastFound = s.lastFound := by
  induction l generalizing s with
  | nil => exact ⟨rfl, rfl⟩
  | cons page l ih => exact ih _

/-- The pages of the usable regions, in the order in which they become free. -/
def usablePages (regions : List MemRegion) : List ℕ :=
  (regions.filter fun r => r.type = .usable).flatMap MemRegion.pages

theorem foldl_clearRegion (regions : List MemRegion) (s : State) :
    regions.foldl State.clearRegion s = (usablePages regions).foldl State.clearPage s := by
  induction regions generalizing s with
  | nil => rfl
  | cons r regions ih =>
    rw [foldl_cons, ih, State.clearRegion, usablePages, usablePages]
    by_cases htype : r.type = .usable
    · rw [if_pos htype, filter_cons_of_pos (by simpa using htype), flatMap_cons,
        foldl_append]
    · rw [if_neg htype, filter_cons_of_neg (by simpa using htype)]

theorem potentialBitmapTop_induct {P : ℕ → Prop} (hzero : P 0)
    (hreg : ∀ r ∈ regions, r.type = .usable ∨ r.type = .reclaimable → P r.top) :
    P (potentialBitmapTop regions) := by
  unfold potentialBitmapTop
  refine List.foldlRecOn regions _ hzero fun top htop r hr => ?_
  split_ifs with hgreater
  · exact hreg r hr hgreater.1
  · exact htop

theorem WellFormed.top_eq (hwf : WellFormed regions) (hr : r ∈ regions)
    (htype : r.type = .usable ∨ r.type = .reclaimable) : r.top = r.base + r.length := by
  have hfew := hwf.few r hr htype
  unfold pageSize at hfew
  exact Nat.mod_eq_of_lt (by omega)

theorem WellFormed.potentialBitmapTop_lt (hwf : WellFormed regions) :
    potentialBitmapTop regions / pageSize < 2 ^ 32 := by
  refine potentialBitmapTop_induct (P := fun top => top / pageSize < 2 ^ 32) (by decide) ?_
  intro r hr htype
  rw [hwf.top_eq hr htype]
  exact hwf.few r hr htype

theorem top_le_potentialBitmapTop (hr : r ∈ regions) (htype : r.type = .usable) :
    r.top ≤ potentialBitmapTop regions := by
  have hgrows : ∀ (l : List MemRegion) (top : ℕ), top ≤ l.foldl (fun top r =>
      if (r.type = .usable ∨ r.type = .reclaimable) ∧ top < r.top then r.top else top) top := by
    intro l
    induction l with
    | nil => exact fun top => le_rfl
    | cons r l ih =>
      intro top
      refine le_trans ?_ (ih _)
      dsimp only
      split_ifs with hgreater
      · exact hgreater.2.le
      · exact le_rfl
  unfold potentialBitmapTop
  generalize 0 = top
  induction regions generalizing top with
  | nil => cases hr
  | cons r' regions ih =>
    rcases mem_cons.mp hr with rfl | hr
    · refine le_trans ?_ (hgrows regions _)
      dsimp only
      split_ifs with hgreater
      · exact le_rfl
      · have hnot : ¬ top < r.top := fun hlt => hgreater ⟨.inl htype, hlt⟩
        omega
    · exact ih hr _

theorem WellFormed.mem_pages (hwf : WellFormed regions) (hr : r ∈ regions)
    (htype : r.type = .usable) :
    page ∈ r.pages ↔ r.base ≤ page * pageSize ∧ page * pageSize < r.base + r.length := by
  obtain ⟨⟨b, hb⟩, ⟨k, hk⟩⟩ := hwf.aligned r hr htype
  have hfew := hwf.few r hr (.inl htype)
  unfold MemRegion.pages MemRegion.firstPage
  rw [mem_range'_1, hwf.top_eq hr (.inl htype)]
  unfold pageSize at *
  omega

theorem WellFormed.nodup_usablePages (hwf : WellFormed regions) : (usablePages regions).Nodup := by
  unfold usablePages
  rw [nodup_flatMap]
  refine ⟨fun r _ => nodup_range', ?_⟩
  have hpairs := hwf.disjoint.filter fun r => r.type = .usable
  refine hpairs.imp_of_mem fun {r r'} hr hr' hdisj => ?_
  obtain ⟨hmem, htype⟩ := mem_filter.mp hr
  obtain ⟨hmem', htype'⟩ := mem_filter.mp hr'
  replace htype := of_decide_eq_true htype
  replace htype' := of_decide_eq_true htype'
  intro page hpage hpage'
  have hin := (hwf.mem_pages hmem htype).mp hpage
  have hin' := (hwf.mem_pages hmem' htype').mp hpage'
  rcases hdisj htype htype' with hle | hle
  · omega
  · omega

theorem WellFormed.mem_usablePages (hwf : WellFormed regions) (hr : r ∈ regions)
    (htype : r.type = .usable) (hlow : r.base ≤ page * pageSize)
    (hhigh : page * pageSize < r.base + r.length) : page ∈ usablePages regions :=
  mem_flatMap.mpr ⟨r, mem_filter.mpr ⟨hr, decide_eq_true htype⟩,
    (hwf.mem_pages hr htype).mpr ⟨hlow, hhigh⟩⟩

theorem WellFormed.usablePages_lt (hwf : WellFormed regions) (hpage : page ∈ usablePages regions) :
    page < potentialBitmapTop regions / pageSize := by
  obtain ⟨r, hr, hpages⟩ := mem_flatMap.mp hpage
  obtain ⟨hmem, htype⟩ := mem_filter.mp hr
  replace htype := of_decide_eq_true htype
  obtain ⟨hlow, hhigh⟩ := (hwf.mem_pages hmem htype).mp hpages
  obtain ⟨⟨b, hb⟩, ⟨k, hk⟩⟩ := hwf.aligned r hmem htype
  have htop : r.base + r.length ≤ potentialBitmapTop regions :=
    hwf.top_eq hmem (.inl htype) ▸ top_le_potentialBitmapTop hmem htype
  unfold pageSize at *
  omega

theorem testBit_filled (memory : ℕ → BitVec 64) (hpage : page < n) :
    testBit (fillBytes memory (bitmapBytes n)) page = true := by
  have hbytes : page < 8 * bitmapBytes n := by
    unfold bitmapBytes
    omega
  rw [testBit_fillBytes (by decide) (by decide), decide_eq_true hbytes, Bool.true_or]

theorem freeCounted_filled (memory : ℕ → BitVec 64) (hn : n < 2 ^ 32) :
    FreeCounted
      { bitmap := fillBytes memory (bitmapBytes n), maxPages := n, usedPages := 0, freePages := 0,
        lastFound := 0 } := by
  refine ⟨hn, Eq.symm (countP_eq_zero.mpr fun page hpage => ?_)⟩
  rw [testBit_filled memory (mem_range.mp hpage)]
  decide

theorem of_bitmapRegion (h : bitmapRegion regions n = some r) :
    r ∈ regions ∧ r.type = .usable ∧ mib ≤ r.base ∧ bitmapBytes n ≤ r.length := by
  have htest := List.find?_some h
  exact ⟨mem_of_find?_eq_some h, of_decide_eq_true htest⟩

theorem WellFormed.bitmapPage (hwf : WellFormed regions) (hr : r ∈ regions)
    (htype : r.type = .usable) (hlen : bitmapBytes n ≤ r.length)
    (hpage : page ∈ List.range' (r.base / pageSize)
      ((bitmapBytes n + pageSize - 1) / pageSize)) : page ∈ usablePages regions := by
  obtain ⟨⟨b, hb⟩, ⟨k, hk⟩⟩ := hwf.aligned r hr htype
  rw [mem_range'_1] at hpage
  have hin : r.base ≤ page * pageSize ∧ page * pageSize < r.base + r.length := by
    unfold pageSize at *
    omega
  exact hwf.mem_usablePages hr htype hin.1 hin.2

theorem FreeCounted.reserveFirst (h : FreeCounted s) (hpos : 0 < s.maxPages) :
    FreeCounted s.reserveFirst ∧ pmmTestBit s.reserveFirst 0 = true := by
  unfold State.reserveFirst
  by_cases hclear : pmmTestBit s 0 = false
  · rw [if_pos hclear]
    refine ⟨h.takePage hpos hclear, (testBit_setBit (by decide) s.bitmap 0 0).trans ?_⟩
    rw [decide_eq_true rfl, Bool.true_or]
  · rw [if_neg hclear]
    exact ⟨h, by simpa using hclear⟩

theorem lastFound_reserveFirst (s : State) : s.reserveFirst.lastFound = s.lastFound := by
  unfold State.reserveFirst
  split <;> rfl

theorem FreeCounted.balanced (h : FreeCounted s) (hfst : pmmTestBit s 0 = true)
    (hcursor : s.lastFound = 0) :
    Balanced { s with usedPages := (s.maxPages + (2 ^ 64 - s.freePages)) % 2 ^ 32 } := by
  have hsum := countSet_add_countClear s.bitmap s.maxPages
  have hfew := h.few
  have hfree := h.free
  refine ⟨⟨hfew, hfree⟩, ?_, ?_, ?_, hfst⟩
  · show (s.maxPages + (2 ^ 64 - s.freePages)) % 2 ^ 32 + s.freePages = s.maxPages
    omega
  · show s.lastFound ≤ s.maxPages
    omega
  · intro page hpage
    have hlt : page < s.lastFound := hpage
    omega

theorem balanced_pmmInit {memory : ℕ → BitVec 64} (hwf : WellFormed regions)
    (h : pmmInit memory regions = some s) : Balanced s := by
  have htop := hwf.potentialBitmapTop_lt
  unfold pmmInit at h
  dsimp only at h
  split_ifs at h
  cases hhome : bitmapRegion regions (potentialBitmapTop regions / pageSize) with
  | none =>
    rw [hhome] at h
    cases h
  | some home =>
    simp only [hhome, foldl_clearRegion, Option.some.injEq] at h
    obtain ⟨hmem, htype, hlow, hlen⟩ := of_bitmapRegion hhome
    have hpositive : 0 < potentialBitmapTop regions / pageSize := by
      have hle := top_le_potentialBitmapTop hmem htype
      rw [hwf.top_eq hmem (.inl htype)] at hle
      unfold pageSize mib at *
      omega
    generalize hn : potentialBitmapTop regions / pageSize = n at *
    generalize hstart : State.mk (fillBytes memory (bitmapBytes n)) n 0 0 0 = start at h
    have hmax : start.maxPages = n := by rw [← hstart]
    have hcursor : start.lastFound = 0 := by rw [← hstart]
    have hfill : FreeCounted start := hstart ▸ freeCounted_filled memory htop
    have hused : ∀ page ∈ usablePages regions,
        page < start.maxPages ∧ pmmTestBit start page = true := by
      intro page hpage
      have hlt : page < n := hn ▸ hwf.usablePages_lt hpage
      exact ⟨hmax.symm ▸ hlt, hstart ▸ testBit_filled memory hlt⟩
    have hcleared := hfill.clearPages hwf.nodup_usablePages hused
    obtain ⟨hmax₁, hcursor₁, hbitmap₁⟩ := clearPages_fields (usablePages regions) start
    generalize (usablePages regions).foldl State.clearPage start = cleared at *
    have hpages : ∀ page ∈ List.range' (home.base / pageSize)
        ((bitmapBytes n + pageSize - 1) / pageSize),
        page < cleared.maxPages ∧ pmmTestBit cleared page = false := by
      intro page hpage
      have husable := hwf.bitmapPage hmem htype hlen hpage
      refine ⟨hmax₁.symm ▸ (hused page husable).1, ?_⟩
      rw [pmmTestBit, hbitmap₁, testBit_foldl_clearBit (by decide)]
      simp [husable]
    have htaken := hcleared.takePages nodup_range' hpages
    generalize List.range' (home.base / pageSize) _ = pages at *
    obtain ⟨hmax₂, hcursor₂⟩ := takePages_fields pages cleared
    generalize pages.foldl State.takePage cleared = taken at *
    obtain ⟨hcount, hfst⟩ := htaken.reserveFirst (by rw [hmax₂, hmax₁, hmax]; exact hpositive)
    subst h
    exact hcount.balanced hfst (by rw [lastFound_reserveFirst, hcursor₂, hcursor₁, hcursor])

end Taavi.X64.Pmm
