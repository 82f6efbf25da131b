import Mathlib.Data.List.Range
import Mathlib.Tactic.Ring

/-!
# Searches around a circle

Searches of a table around the circle find a slot whenever one satisfies the test, and do not go
past one that does.
-/

namespace Lib

/-- The slots from a position on, around a circle of `n` slots and up to the position again. -/
def circle (n position start : ℕ) : List ℕ :=
  (List.range' start (n + 1 - start)).map fun i => (position + i) % n

/-- The number of steps from a slot to another one, around a circle of `n` slots. -/
def stepsTo (n a b : ℕ) : ℕ := (b + (n - a)) % n

variable {n a b c i position start : ℕ} {p : ℕ → Bool}

theorem stepsTo_lt (hn : 0 < n) : stepsTo n a b < n := Nat.mod_lt _ hn

theorem stepsTo_self (ha : a < n) : stepsTo n a a = 0 := by
  unfold stepsTo
  rw [Nat.add_sub_cancel' ha.le, Nat.mod_self]

theorem stepsTo_add (n a c i : ℕ) : stepsTo n a ((c + i) % n) = (stepsTo n a c + i) % n := by
  unfold stepsTo
  rw [Nat.mod_add_mod, Nat.mod_add_mod, add_right_comm]

theorem add_stepsTo (ha : a < n) (hb : b < n) : (a + stepsTo n a b) % n = b := by
  unfold stepsTo
  rw [Nat.add_mod_mod, show a + (b + (n - a)) = b + n by omega, Nat.add_mod_right,
    Nat.mod_eq_of_lt hb]

theorem stepsTo_injective (ha : a < n) (hb : b < n) (hc : c < n)
    (h : stepsTo n a b = stepsTo n a c) : b = c := by
  rw [← add_stepsTo ha hb, h, add_stepsTo ha hc]

theorem find_circle_eq_none (hn : 0 < n) (hstart : start ≤ 1) :
    (circle n position start).find? p = none ↔ ∀ b < n, p b = false := by
  simp only [circle, List.find?_eq_none, List.mem_map, List.mem_range'_1, forall_exists_index,
    and_imp, Bool.not_eq_true]
  constructor
  · intro h b hb
    -- the slot is reached by its steps from the position, or after a whole turn
    have hpos : position % n < n := Nat.mod_lt _ hn
    have hreach : (position + stepsTo n (position % n) b) % n = b := by
      rw [← Nat.mod_add_mod, add_stepsTo hpos hb]
    have hlt : stepsTo n (position % n) b < n := stepsTo_lt hn
    by_cases hzero : stepsTo n (position % n) b = 0
    · refine h b n (by omega) (by omega) ?_
      rw [Nat.add_mod_right]
      rwa [hzero, add_zero] at hreach
    · exact h b _ (by omega) (by omega) hreach
  · intro h b i _ _ hb
    exact h b (hb ▸ Nat.mod_lt _ hn)

theorem of_find_circle (hn : 0 < n) (h : (circle n position start).find? p = some b) :
    b < n ∧ p b = true := by
  obtain ⟨i, -, rfl⟩ := List.mem_map.mp (List.mem_of_find?_eq_some h)
  exact ⟨Nat.mod_lt _ hn, List.find?_some h⟩

theorem first_of_find_circle (h : (circle n position 1).find? p = some b) :
    ∃ i, 1 ≤ i ∧ i ≤ n ∧ b = (position + i) % n ∧
      ∀ j, 1 ≤ j → j < i → p ((position + j) % n) = false := by
  unfold circle at h
  rw [List.find?_map, Option.map_eq_some_iff] at h
  obtain ⟨i, hi, rfl⟩ := h
  obtain ⟨-, hrange, hpre⟩ := List.find?_range'_eq_some.mp hi
  obtain ⟨hlow, hhigh⟩ := List.mem_range'_1.mp hrange
  exact ⟨i, hlow, by omega, rfl, fun j hj hji => by simpa using hpre j hj hji⟩

/-- A search from the arc from `a` to `b` finds `b` or a slot inside the arc. -/
theorem find_circle_on_arc (ha : a < n) (hb : b < n)
    (harc : stepsTo n a position < stepsTo n a b) (hp : p b = true)
    (hfind : (circle n position 1).find? p = some c) :
    c = b ∨ c ≠ a ∧ stepsTo n a c < stepsTo n a b := by
  obtain ⟨i, hi, -, rfl, hfst⟩ := first_of_find_circle hfind
  have hlt : stepsTo n a b < n := stepsTo_lt (by omega)
  -- the search reaches `b` after the remaining steps of the arc
  have hreach : (position + (stepsTo n a b - stepsTo n a position)) % n = b := by
    refine stepsTo_injective ha (Nat.mod_lt _ (by omega)) hb ?_
    rw [stepsTo_add, Nat.add_sub_cancel' harc.le, Nat.mod_eq_of_lt hlt]
  have hle : i ≤ stepsTo n a b - stepsTo n a position := by
    by_contra hpast
    have hmiss := hfst (stepsTo n a b - stepsTo n a position) (by omega) (by omega)
    rw [hreach, hp] at hmiss
    cases hmiss
  by_cases hend : i = stepsTo n a b - stepsTo n a position
  · left
    rw [hend, hreach]
  · right
    have hsteps : stepsTo n a ((position + i) % n) = stepsTo n a position + i := by
      rw [stepsTo_add, Nat.mod_eq_of_lt (by omega)]
    refine ⟨fun hback => ?_, by omega⟩
    rw [hback, stepsTo_self ha] at hsteps
    omega

end Lib
