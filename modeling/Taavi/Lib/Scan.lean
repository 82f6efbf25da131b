import Mathlib.Data.List.Find
import Mathlib.Data.List.Range
import Mathlib.Tactic.Ring

/-!
# Scanning a table of slots

The loop `for (i = 0; i < n; i++) if (p(i)) …` that stops at the first hit, and
the update of one entry of a table.
-/

namespace Lib

open List

variable {α : Type*} {p : ℕ → Bool} {n i a b : ℕ}

/-- The first index below `n` that satisfies the test. -/
def firstSlot (n : ℕ) (p : ℕ → Bool) : Option ℕ := (List.range n).find? p

theorem firstSlot_eq_some : firstSlot n p = some i ↔ i < n ∧ p i = true ∧ ∀ j < i, p j = false := by
  unfold firstSlot
  rw [List.find?_range_eq_some]
  simp only [mem_range, Bool.not_eq_eq_eq_not, Bool.not_true]
  tauto

theorem firstSlot_eq_none : firstSlot n p = none ↔ ∀ i < n, p i = false := by
  unfold firstSlot
  simp [List.find?_eq_none]

theorem firstSlot_congr {q : ℕ → Bool} (h : ∀ i < n, p i = q i) : firstSlot n p = firstSlot n q :=
  List.find?_congr fun i hi => h i (mem_range.mp hi)

/-- The first index from `a` up to `b` that satisfies the test. -/
def firstFrom (a b : ℕ) (p : ℕ → Bool) : Option ℕ :=
  (firstSlot (b - a) fun i => p (a + i)).map (a + ·)

theorem firstFrom_eq_some :
    firstFrom a b p = some i ↔ a ≤ i ∧ i < b ∧ p i = true ∧ ∀ j, a ≤ j → j < i → p j = false := by
  unfold firstFrom
  rw [Option.map_eq_some_iff]
  constructor
  · rintro ⟨k, hk, rfl⟩
    obtain ⟨hlt, hp, hfst⟩ := firstSlot_eq_some.mp hk
    refine ⟨by omega, by omega, hp, fun j hj hji => ?_⟩
    have h := hfst (j - a) (by omega)
    rwa [Nat.add_sub_cancel' hj] at h
  · rintro ⟨hai, hib, hp, hfst⟩
    refine ⟨i - a, firstSlot_eq_some.mpr ⟨by omega, ?_, fun j hj => ?_⟩, by omega⟩
    · rwa [Nat.add_sub_cancel' hai]
    · exact hfst (a + j) (by omega) (by omega)

theorem firstFrom_eq_none : firstFrom a b p = none ↔ ∀ j, a ≤ j → j < b → p j = false := by
  unfold firstFrom
  rw [Option.map_eq_none_iff, firstSlot_eq_none]
  constructor
  · intro h j hj hjb
    have hj' := h (j - a) (by omega)
    rwa [Nat.add_sub_cancel' hj] at hj'
  · intro h i hi
    exact h (a + i) (by omega) (by omega)

theorem find?_of_mem_takeWhile {l : List α} {p q : α → Bool} {a : α}
    (ha : a ∈ l.takeWhile q) (hp : p a = true) (honly : ∀ b ∈ l.takeWhile q, p b = true → b = a) :
    l.find? p = some a := by
  induction l with
  | nil => simp at ha
  | cons b l ih =>
    rw [takeWhile_cons] at ha honly
    split_ifs at ha honly with hq
    · cases hb : p b with
      | true => rw [List.find?_cons_of_pos hb, honly b mem_cons_self hb]
      | false =>
        rw [List.find?_cons_of_neg (by simp [hb])]
        have hne : a ≠ b := fun hab => by simp [← hab, hp] at hb
        exact ih ((mem_cons.mp ha).resolve_left hne)
          fun c hc => honly c (mem_cons_of_mem b hc)
    · simp at ha

theorem takeWhile_front {front rest : List α} {x : α} {p q : α → Bool}
    (hx : q x = false) (hsame : ∀ a ∈ front, q a = p a) :
    (front ++ x :: rest).takeWhile q = front.takeWhile p := by
  induction front with
  | nil => rw [nil_append, takeWhile_cons, hx, takeWhile_nil]; rfl
  | cons a front ih =>
    have hrest := ih fun b hb => hsame b (mem_cons_of_mem a hb)
    rw [cons_append, takeWhile_cons, takeWhile_cons,
      hsame a (mem_cons_self ..), hrest]

theorem filter_takeWhile_front {front rest : List α} {p q : α → Bool}
    (hfront : ∀ a ∈ front, q a = true) (hrest : ∀ a ∈ rest, q a = false) :
    ((front ++ rest).takeWhile p).filter q = front.takeWhile p := by
  induction front with
  | nil =>
    refine filter_eq_nil_iff.mpr fun a ha => ?_
    rw [hrest a ((takeWhile_sublist p).mem ha)]
    exact Bool.false_ne_true
  | cons a front ih =>
    rw [cons_append, takeWhile_cons, takeWhile_cons]
    cases p a with
    | false => rfl
    | true =>
      rw [if_pos rfl, if_pos rfl, filter_cons, if_pos (hfront a (mem_cons_self ..)),
        ih fun b hb => hfront b (mem_cons_of_mem a hb)]

/-- Replace one entry of a table. -/
def assign {α : Type*} (table : ℕ → α) (i : ℕ) (v : α) : ℕ → α :=
  fun j => if j = i then v else table j

@[simp] theorem assign_same (table : ℕ → α) (i : ℕ) (v : α) :
    assign table i v i = v := by simp [assign]

@[simp] theorem assign_of_ne (table : ℕ → α) {j : ℕ} (v : α) (h : j ≠ i) :
    assign table i v j = table j := by simp [assign, h]

theorem assign_apply (table : ℕ → α) (i j : ℕ) (v : α) :
    assign table i v j = if j = i then v else table j := rfl

theorem map_assign {β : Type*} (f : α → β) (table : ℕ → Option α) (i : ℕ) (v : Option α) :
    (fun j => (assign table i v j).map f) = assign (fun j => (table j).map f) i (v.map f) := by
  funext j
  simp only [assign_apply]
  split_ifs <;> rfl

end Lib
