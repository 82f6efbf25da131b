import Taavi.Lib.Scan
import Mathlib.Data.Nat.Bitwise

/-!
# Bitmaps

Tables of machine words of which every bit stands for one object. Bits are tested, set and cleared
by masks, and ranges in loops or by filling bytes.
-/

namespace Lib

open List

variable {w : ℕ}

/-- Whether bit `i` of the table is set. -/
def testBit (m : ℕ → BitVec w) (i : ℕ) : Bool :=
  (m (i / w) &&& (1#w <<< (i % w))) != 0#w

/-- Set bit `i` of the table. -/
def setBit (m : ℕ → BitVec w) (i : ℕ) : ℕ → BitVec w :=
  assign m (i / w) (m (i / w) ||| (1#w <<< (i % w)))

/-- Clear bit `i` of the table. -/
def clearBit (m : ℕ → BitVec w) (i : ℕ) : ℕ → BitVec w :=
  assign m (i / w) (m (i / w) &&& ~~~(1#w <<< (i % w)))

/-- The loop that sets the bits from `a` up to `b`. -/
def setBits (m : ℕ → BitVec w) (a b : ℕ) : ℕ → BitVec w :=
  (List.range' a (b - a)).foldl setBit m

/-- Fill the first `size` bytes of the table with ones, on a little-endian machine. -/
def fillBytes (m : ℕ → BitVec w) (size : ℕ) : ℕ → BitVec w :=
  fun k => m k ||| BitVec.ofNat w (2 ^ (8 * (size - w / 8 * k)) - 1)

theorem testBit_eq_getLsbD (hw : 0 < w) (m : ℕ → BitVec w) (i : ℕ) :
    testBit m i = (m (i / w)).getLsbD (i % w) := by
  have hlt : i % w < w := Nat.mod_lt i hw
  unfold testBit
  rw [← BitVec.twoPow_eq, BitVec.and_twoPow]
  split
  · rename_i hbit
    rw [hbit, bne_iff_ne]
    intro hzero
    have hbit' : (BitVec.twoPow w (i % w)).getLsbD (i % w) = false := by
      rw [hzero, BitVec.getLsbD_zero]
    simp [hlt] at hbit'
  · rename_i hbit
    rw [Bool.eq_false_iff.mpr hbit]
    simp

theorem eq_of_div_mod {i j : ℕ} (hdiv : i / w = j / w) (hmod : i % w = j % w) : i = j := by
  rw [← Nat.div_add_mod i w, ← Nat.div_add_mod j w, hdiv, hmod]

theorem testBit_setBit (hw : 0 < w) (m : ℕ → BitVec w) (i j : ℕ) :
    testBit (setBit m i) j = (decide (j = i) || testBit m j) := by
  have hlt : i % w < w := Nat.mod_lt i hw
  rw [testBit_eq_getLsbD hw, testBit_eq_getLsbD hw, setBit, assign_apply]
  split
  · rename_i hword
    rw [← BitVec.twoPow_eq, BitVec.getLsbD_or, BitVec.getLsbD_twoPow, hword, Bool.or_comm]
    congr 1
    rw [Bool.eq_iff_iff]
    simp only [hlt, decide_true, Bool.true_and, decide_eq_true_eq]
    exact ⟨fun hbit => eq_of_div_mod hword hbit.symm, fun heq => by rw [heq]⟩
  · rename_i hword
    have hne : j ≠ i := fun heq => hword (by rw [heq])
    simp [hne]

theorem testBit_clearBit (hw : 0 < w) (m : ℕ → BitVec w) (i j : ℕ) :
    testBit (clearBit m i) j = (decide (j ≠ i) && testBit m j) := by
  have hlt : i % w < w := Nat.mod_lt i hw
  have hlt' : j % w < w := Nat.mod_lt j hw
  rw [testBit_eq_getLsbD hw, testBit_eq_getLsbD hw, clearBit, assign_apply]
  split
  · rename_i hword
    rw [← BitVec.twoPow_eq, BitVec.getLsbD_and, BitVec.getLsbD_not, BitVec.getLsbD_twoPow, hword,
      Bool.and_comm]
    congr 1
    rw [Bool.eq_iff_iff]
    simp only [hlt, hlt', decide_true, Bool.true_and, Bool.not_eq_true', decide_eq_true_eq,
      decide_eq_false_iff_not]
    exact not_congr ⟨fun hbit => eq_of_div_mod hword hbit.symm, fun heq => by rw [heq]⟩
  · rename_i hword
    have hne : j ≠ i := fun heq => hword (by rw [heq])
    simp [hne]

theorem testBit_foldl_setBit (hw : 0 < w) (l : List ℕ) (m : ℕ → BitVec w) (j : ℕ) :
    testBit (l.foldl setBit m) j = (decide (j ∈ l) || testBit m j) := by
  induction l generalizing m with
  | nil => simp
  | cons i l ih =>
    rw [foldl_cons, ih, testBit_setBit hw, ← Bool.or_assoc, ← Bool.decide_or]
    simp only [mem_cons, or_comm]

theorem testBit_foldl_clearBit (hw : 0 < w) (l : List ℕ) (m : ℕ → BitVec w) (j : ℕ) :
    testBit (l.foldl clearBit m) j = (decide (j ∉ l) && testBit m j) := by
  induction l generalizing m with
  | nil => simp
  | cons i l ih =>
    rw [foldl_cons, ih, testBit_clearBit hw, ← Bool.and_assoc, ← Bool.decide_and]
    simp only [mem_cons, not_or, and_comm, ne_eq]

theorem testBit_setBits (hw : 0 < w) (m : ℕ → BitVec w) (a b j : ℕ) :
    testBit (setBits m a b) j = (decide (a ≤ j ∧ j < b) || testBit m j) := by
  rw [setBits, testBit_foldl_setBit hw]
  congr 1
  simp only [mem_range'_1, decide_eq_decide]
  omega

theorem testBit_fillBytes (hw : 0 < w) (hbytes : 8 ∣ w) (m : ℕ → BitVec w) (size j : ℕ) :
    testBit (fillBytes m size) j = (decide (j < 8 * size) || testBit m j) := by
  have hlt : j % w < w := Nat.mod_lt j hw
  have hword : 8 * (w / 8) = w := Nat.mul_div_cancel' hbytes
  have hplace : w * (j / w) + j % w = j := Nat.div_add_mod j w
  rw [testBit_eq_getLsbD hw, testBit_eq_getLsbD hw, fillBytes, BitVec.getLsbD_or,
    BitVec.getLsbD_ofNat, Nat.testBit_two_pow_sub_one, Bool.or_comm]
  congr 1
  simp only [hlt, decide_true, Bool.true_and, decide_eq_decide]
  rw [Nat.mul_sub, ← mul_assoc, hword]
  omega

/-- The number of bits below `n` that are set. -/
def countSet (m : ℕ → BitVec w) (n : ℕ) : ℕ := (List.range n).countP (testBit m)

/-- The number of bits below `n` that are clear. -/
def countClear (m : ℕ → BitVec w) (n : ℕ) : ℕ := (List.range n).countP fun i => !testBit m i

variable {m m' : ℕ → BitVec w} {n i : ℕ}

theorem countSet_add_countClear (m : ℕ → BitVec w) (n : ℕ) : countSet m n + countClear m n = n := by
  have hlen := length_eq_countP_add_countP (testBit m) (l := List.range n)
  rw [length_range] at hlen
  unfold countSet countClear
  simpa only [decide_not, Bool.decide_eq_true] using hlen.symm

theorem countSet_congr (h : ∀ j < n, testBit m' j = testBit m j) : countSet m' n = countSet m n :=
  countP_congr fun j hj => by rw [h j (mem_range.mp hj)]

theorem countP_range_add_one {p q : ℕ → Bool} (hi : i < n) (hp : p i = false) (hq : q i = true)
    (hother : ∀ j, j ≠ i → q j = p j) :
    (List.range n).countP q = (List.range n).countP p + 1 := by
  induction n with
  | zero => omega
  | succ n ih =>
    rw [range_succ, countP_append, countP_append, countP_singleton,
      countP_singleton]
    by_cases hin : i = n
    · subst hin
      have hsame : (List.range i).countP q = (List.range i).countP p :=
        countP_congr fun j hj => by rw [hother j (by have := mem_range.mp hj; omega)]
      simp [hsame, hp, hq]
    · rw [ih (by omega), hother n (Ne.symm hin)]
      omega

theorem countSet_setBit (hw : 0 < w) (hi : i < n) (hbit : testBit m i = false) :
    countSet (setBit m i) n = countSet m n + 1 := by
  refine countP_range_add_one hi hbit ?_ fun j hj => ?_
  · simp [testBit_setBit hw]
  · simp [testBit_setBit hw, hj]

theorem countSet_clearBit (hw : 0 < w) (hi : i < n) (hbit : testBit m i = true) :
    countSet m n = countSet (clearBit m i) n + 1 := by
  refine countP_range_add_one hi ?_ hbit fun j hj => ?_
  · simp [testBit_clearBit hw]
  · simp [testBit_clearBit hw, hj]

end Lib
