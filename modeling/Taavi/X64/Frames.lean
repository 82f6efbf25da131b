import Taavi.X64.PmmRuns

/-!
# Frames of the x86_64 that are taken and given back

What users of the physical memory manager rely on: a frame that is given was free, one that is given
back becomes free, and no other changes. Nothing is asked of the first page.
-/

namespace Taavi.X64.Pmm

open Lib

/-- The free pages are counted right, and the cursor is in the bitmap or behind it. -/
structure Steady (s : State) : Prop extends FreeCounted s where
  cursor : s.lastFound ≤ s.maxPages

/-- What `pmm_alloc` gives, if it gives anything: a frame that was free. -/
structure Given (s : State) (frame : ℕ) : Prop where
  addr : (pmmAlloc s).1 = frame * pageSize
  nonzero : frame ≠ 0
  lt : frame < s.maxPages
  free : pmmTestBit s frame = false
  bits : ∀ q, pmmTestBit (pmmAlloc s).2 q = (decide (q = frame) || pmmTestBit s q)

/-- Give back frames one after the other. -/
def freeFrames (s : State) (frames : List ℕ) : State :=
  frames.foldl (fun s frame => (pmmFree s (frame * pageSize)).1) s

variable {s : State} {page q addr frame : ℕ} {l l' : List ℕ}

theorem Steady.pmmAlloc_cases (h : Steady s) :
    (∃ page < s.maxPages, pmmTestBit s page = false ∧
      pmmAlloc s = (page * pageSize, { s.takePage page with lastFound := page + 1 })) ∨
    pmmAlloc s = (0, s) := by
  have hfew := h.few
  have hcursor := h.cursor
  have hfound : ∀ page < s.maxPages, page * pageSize % 2 ^ 64 = page * pageSize ∧
      (page + 1) % 2 ^ 32 = page + 1 := by
    intro page hlt
    unfold pageSize
    omega
  unfold pmmAlloc
  dsimp only
  cases hfst : firstFrom s.lastFound s.maxPages fun page => !pmmTestBit s page with
  | some page =>
    obtain ⟨-, hlt, hclear, -⟩ := firstFrom_eq_some.mp hfst
    refine .inl ⟨page, hlt, by simpa using hclear, ?_⟩
    dsimp only
    rw [(hfound page hlt).1, (hfound page hlt).2]
  | none =>
    cases hagain : firstFrom 0 s.lastFound fun page => !pmmTestBit s page with
    | some page =>
      obtain ⟨-, hlt, hclear, -⟩ := firstFrom_eq_some.mp hagain
      have hlt' : page < s.maxPages := by omega
      refine .inl ⟨page, hlt', by simpa using hclear, ?_⟩
      dsimp only
      rw [(hfound page hlt').1, (hfound page hlt').2]
    | none => exact .inr rfl

theorem Steady.alloc (h : Steady s) : Steady (pmmAlloc s).2 := by
  rcases h.pmmAlloc_cases with ⟨page, hlt, hfree, heq⟩ | heq
  · rw [heq]
    have htaken := h.toFreeCounted.takePage hlt hfree
    exact ⟨⟨htaken.few, htaken.free⟩, hlt⟩
  · rw [heq]
    exact h

theorem Steady.maxPages_alloc (h : Steady s) : (pmmAlloc s).2.maxPages = s.maxPages := by
  rcases h.pmmAlloc_cases with ⟨page, -, -, heq⟩ | heq
  · rw [heq]
    rfl
  · rw [heq]

theorem Steady.used_alloc (h : Steady s) (hused : pmmTestBit s q = true) :
    pmmTestBit (pmmAlloc s).2 q = true := by
  rcases h.pmmAlloc_cases with ⟨page, -, -, heq⟩ | heq
  · rw [heq, pmmTestBit_takePage, hused, Bool.or_true]
  · rw [heq]
    exact hused

theorem Steady.exists_given (h : Steady s) (haddr : (pmmAlloc s).1 ≠ 0) :
    ∃ frame, Given s frame := by
  rcases h.pmmAlloc_cases with ⟨page, hlt, hfree, heq⟩ | heq
  · refine ⟨page, by rw [heq], ?_, hlt, hfree, fun q => ?_⟩
    · rintro rfl
      rw [heq, zero_mul] at haddr
      exact haddr rfl
    · rw [heq]
      exact pmmTestBit_takePage s page q (page + 1)
  · rw [heq] at haddr
    exact absurd rfl haddr

namespace Given

theorem div (h : Given s frame) : (pmmAlloc s).1 / pageSize = frame := by
  rw [h.addr, Nat.mul_div_cancel frame (by decide)]

theorem used (h : Given s frame) : pmmTestBit (pmmAlloc s).2 frame = true := by
  rw [h.bits, decide_eq_true rfl, Bool.true_or]

theorem other (h : Given s frame) (hne : q ≠ frame) :
    pmmTestBit (pmmAlloc s).2 q = pmmTestBit s q := by
  rw [h.bits, decide_eq_false hne, Bool.false_or]

theorem addr_lt (h : Given s frame) (hs : Steady s) : frame * pageSize < 2 ^ 52 := by
  have hlt := h.lt
  have hfew := hs.few
  unfold pageSize
  omega

theorem freePages (h : Given s frame) (hs : Steady s) :
    (pmmAlloc s).2.freePages + 1 = s.freePages := by
  have hbits : countSet (setBit s.bitmap frame) s.maxPages = countSet s.bitmap s.maxPages + 1 :=
    countSet_setBit (by decide) h.lt h.free
  have hsame : countSet (pmmAlloc s).2.bitmap s.maxPages =
      countSet (setBit s.bitmap frame) s.maxPages :=
    countSet_congr fun q _ => (h.bits q).trans (testBit_setBit (by decide) s.bitmap frame q).symm
  have hsum := countSet_add_countClear s.bitmap s.maxPages
  have hsum' := countSet_add_countClear (pmmAlloc s).2.bitmap s.maxPages
  have hfree := hs.free
  have hfree' := hs.alloc.free
  rw [hs.maxPages_alloc] at hfree'
  omega

end Given

theorem Steady.free_call (h : Steady s) (addr : ℕ) : Steady (pmmFree s addr).1 := by
  rcases pmmFree_cases s addr with ⟨page, -, hlt, hused, heq⟩ | ⟨-, heq⟩
  · rw [heq]
    have hcleared := h.toFreeCounted.clearPage hlt hused
    refine ⟨⟨hcleared.few, hcleared.free⟩, ?_⟩
    show (if page < s.lastFound then page else s.lastFound) ≤ s.maxPages
    split <;> omega
  · rw [heq]
    exact h

theorem maxPages_pmmFree (s : State) (addr : ℕ) : (pmmFree s addr).1.maxPages = s.maxPages := by
  rcases pmmFree_cases s addr with ⟨page, -, -, -, heq⟩ | ⟨-, heq⟩ <;> rw [heq]

theorem pmmTestBit_giveBack (hlt : frame < s.maxPages) (q : ℕ) :
    pmmTestBit (pmmFree s (frame * pageSize)).1 q = (decide (q ≠ frame) && pmmTestBit s q) := by
  rcases pmmFree_cases s (frame * pageSize) with ⟨page, haddr, -, -, heq⟩ | ⟨hrejected, heq⟩
  · obtain rfl : frame = page := Nat.eq_of_mul_eq_mul_right (by decide) haddr
    rw [heq]
    exact testBit_clearBit (by decide) s.bitmap frame q
  · rw [Nat.mul_mod_left, Nat.mul_div_cancel frame (by decide)] at hrejected
    have hclear : pmmTestBit s frame = false :=
      (hrejected.resolve_left fun h => h rfl).resolve_left (by omega)
    rw [heq]
    by_cases hq : q = frame
    · rw [hq, hclear, Bool.and_false]
    · rw [decide_eq_true hq, Bool.true_and]

theorem freeFrames_append (s : State) (l l' : List ℕ) :
    freeFrames s (l ++ l') = freeFrames (freeFrames s l) l' := List.foldl_append

theorem maxPages_freeFrames (s : State) (l : List ℕ) : (freeFrames s l).maxPages = s.maxPages := by
  induction l generalizing s with
  | nil => rfl
  | cons frame l ih => exact (ih _).trans (maxPages_pmmFree s _)

theorem Steady.freeFrames (h : Steady s) (l : List ℕ) : Steady (freeFrames s l) := by
  induction l generalizing s with
  | nil => exact h
  | cons frame l ih => exact ih (h.free_call _)

theorem pmmTestBit_freeFrames (hl : ∀ frame ∈ l, frame < s.maxPages) (q : ℕ) :
    pmmTestBit (freeFrames s l) q = (decide (q ∉ l) && pmmTestBit s q) := by
  induction l generalizing s with
  | nil => simp [Pmm.freeFrames]
  | cons frame l ih =>
    have hframe := hl frame List.mem_cons_self
    show pmmTestBit (Pmm.freeFrames (pmmFree s (frame * pageSize)).1 l) q = _
    rw [ih fun f hf => (maxPages_pmmFree s _).symm ▸ hl f (List.mem_cons_of_mem frame hf),
      pmmTestBit_giveBack hframe, ← Bool.and_assoc, ← Bool.decide_and]
    congr 1
    simp only [List.mem_cons, not_or, decide_eq_decide]
    exact and_comm

theorem Steady.freePages_eq {s' : State} (h : Steady s) (h' : Steady s')
    (hmax : s'.maxPages = s.maxPages) (hbits : ∀ q, pmmTestBit s' q = pmmTestBit s q) :
    s'.freePages = s.freePages := by
  rw [h'.free, h.free, hmax]
  have hset : countSet s'.bitmap s.maxPages = countSet s.bitmap s.maxPages :=
    countSet_congr fun q _ => hbits q
  have hsum := countSet_add_countClear s.bitmap s.maxPages
  have hsum' := countSet_add_countClear s'.bitmap s.maxPages
  omega

end Taavi.X64.Pmm
