import Mathlib.Data.Nat.ModEq
import Taavi.Lib.Scan

/-!
# Rings with free-running counters

A ring is read and written at two counters that start again at zero at a modulus. Where its size
divides the modulus, the ring is a queue across any number of such turns.
-/

namespace Lib

open List

variable {α : Type*} {size modulus read write : ℕ} {buf : ℕ → α}

/-- The number of entries between the two counters. -/
def pending (modulus read write : ℕ) : ℕ := (write + modulus - read) % modulus

/-- The next value of a counter. -/
def turn (modulus n : ℕ) : ℕ := (n + 1) % modulus

/-- The entries between the two counters, from the first to the last. -/
def queued (size modulus : ℕ) (buf : ℕ → α) (read write : ℕ) : List α :=
  (List.range (pending modulus read write)).map fun i => buf ((read + i) % size)

/-- The counters of a ring. -/
structure Ring (size modulus read write : ℕ) : Prop where
  dvd : size ∣ modulus
  size_lt : size < modulus
  /-- The counter for reading is below the modulus. -/
  read_lt : read < modulus
  /-- The counter for writing is below the modulus. -/
  write_lt : write < modulus
  /-- There are no more entries than places. -/
  pending_le : pending modulus read write ≤ size

theorem pending_eq (hread : read < modulus) (hwrite : write < modulus) :
    pending modulus read write =
      if read ≤ write then write - read else write + modulus - read := by
  unfold pending
  split_ifs with hle
  · have heq : write + modulus - read = write - read + modulus := by omega
    rw [heq, Nat.add_mod_right, Nat.mod_eq_of_lt (by omega)]
  · exact Nat.mod_eq_of_lt (by omega)

theorem turn_eq {n : ℕ} (hn : n < modulus) :
    turn modulus n = if n + 1 = modulus then 0 else n + 1 := by
  unfold turn
  split_ifs with heq
  · rw [heq, Nat.mod_self]
  · exact Nat.mod_eq_of_lt (by omega)

@[simp] theorem length_queued : (queued size modulus buf read write).length =
    pending modulus read write := by
  simp [queued]

theorem turn_add_mod_size (hdvd : size ∣ modulus) (n i : ℕ) :
    (turn modulus n + i) % size = (n + (i + 1)) % size := by
  unfold turn
  rw [Nat.add_mod, Nat.mod_mod_of_dvd _ hdvd, ← Nat.add_mod]
  congr 1
  omega

namespace Ring

variable (h : Ring size modulus read write)
include h

theorem write_mod_size : write % size = (read + pending modulus read write) % size := by
  have hread := h.read_lt
  rw [pending_eq h.read_lt h.write_lt]
  split_ifs with hle
  · rw [Nat.add_sub_cancel' hle]
  · obtain ⟨k, hk⟩ := h.dvd
    have heq : read + (write + modulus - read) = write + size * k := by omega
    rw [heq, Nat.add_mul_mod_self_left]

theorem place_ne {i : ℕ} (hi : i < pending modulus read write)
    (hroom : pending modulus read write < size) : (read + i) % size ≠ write % size := by
  rw [h.write_mod_size]
  intro heq
  have hmod : i ≡ pending modulus read write [MOD size] := Nat.ModEq.add_left_cancel' read heq
  have hsame := hmod.eq_of_lt_of_lt (hi.trans hroom) hroom
  omega

theorem pending_push (hroom : pending modulus read write < size) :
    pending modulus read (turn modulus write) = pending modulus read write + 1 := by
  have hsize := h.size_lt
  have hread := h.read_lt
  have hwrite := h.write_lt
  have hturn : turn modulus write < modulus := Nat.mod_lt _ (by omega)
  rw [pending_eq hread hwrite] at hroom ⊢
  rw [pending_eq hread hturn, turn_eq hwrite]
  split_ifs at hroom ⊢ <;> omega

theorem push (hroom : pending modulus read write < size) :
    Ring size modulus read (turn modulus write) := by
  have hpos : 0 < modulus := Nat.zero_lt_of_lt h.write_lt
  refine ⟨h.dvd, h.size_lt, h.read_lt, Nat.mod_lt _ hpos, ?_⟩
  rw [h.pending_push hroom]
  omega

theorem queued_push (buf : ℕ → α) (hroom : pending modulus read write < size) (a : α) :
    queued size modulus (assign buf (write % size) a) read (turn modulus write) =
      queued size modulus buf read write ++ [a] := by
  unfold queued
  rw [h.pending_push hroom, range_succ, map_append]
  congr 1
  · refine map_congr_left fun i hi => ?_
    exact assign_of_ne _ _ (h.place_ne (mem_range.mp hi) hroom)
  · rw [map_singleton, ← h.write_mod_size, assign_same]

theorem pending_pop (hne : read ≠ write) :
    pending modulus read write = pending modulus (turn modulus read) write + 1 := by
  have hread := h.read_lt
  have hwrite := h.write_lt
  have hturn : turn modulus read < modulus := Nat.mod_lt _ (by omega)
  rw [pending_eq hread hwrite, pending_eq hturn hwrite, turn_eq hread]
  split_ifs <;> omega

theorem pop (hne : read ≠ write) : Ring size modulus (turn modulus read) write := by
  have hpos : 0 < modulus := Nat.zero_lt_of_lt h.write_lt
  have hle := h.pending_le
  refine ⟨h.dvd, h.size_lt, Nat.mod_lt _ hpos, h.write_lt, ?_⟩
  rw [h.pending_pop hne] at hle
  omega

theorem queued_pop (buf : ℕ → α) (hne : read ≠ write) : queued size modulus buf read write =
    buf (read % size) :: queued size modulus buf (turn modulus read) write := by
  unfold queued
  rw [h.pending_pop hne, range_succ_eq_map, map_cons, map_map, add_zero]
  congr 1
  refine map_congr_left fun i _ => ?_
  rw [turn_add_mod_size h.dvd]
  rfl

theorem pending_self : pending modulus write write = 0 := by
  rw [pending_eq h.write_lt h.write_lt, if_pos (le_refl _), Nat.sub_self]

theorem clear : Ring size modulus write write := by
  refine ⟨h.dvd, h.size_lt, h.write_lt, h.write_lt, ?_⟩
  rw [h.pending_self]
  exact Nat.zero_le _

theorem queued_clear (buf : ℕ → α) : queued size modulus buf write write = [] := by
  rw [queued, h.pending_self]
  rfl

theorem queued_eq_nil_iff (buf : ℕ → α) :
    queued size modulus buf read write = [] ↔ read = write := by
  constructor
  · intro hnil
    by_contra hne
    rw [h.queued_pop buf hne] at hnil
    cases hnil
  · rintro rfl
    exact h.queued_clear buf

end Ring

end Lib
