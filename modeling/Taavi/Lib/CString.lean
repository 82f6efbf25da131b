import Taavi.Lib.ByteMemory
import Taavi.Lib.Scan

/-!
# Strings in a memory

A string of the C language: the bytes before the first zero. `At` says that bytes are at an address,
and `string` reads a string back.
-/

namespace Lib.Memory

variable {m m' : Memory} {a b limit : ℕ} {c : UInt8} {text rest : List UInt8}

/-- The bytes are at the address. -/
def At (m : Memory) : ℕ → List UInt8 → Prop
  | _, [] => True
  | a, c :: rest => m a = c ∧ At m (a + 1) rest

/-- The string at an address, as far as it has no more than `limit` bytes. -/
def string (m : Memory) : ℕ → ℕ → List UInt8
  | 0, _ => []
  | limit + 1, a => if m a = 0 then [] else m a :: string m limit (a + 1)

@[simp] theorem at_nil : At m a [] := trivial

@[simp] theorem at_cons : At m a (c :: rest) ↔ m a = c ∧ At m (a + 1) rest := Iff.rfl

theorem at_append : At m a (text ++ rest) ↔ At m a text ∧ At m (a + text.length) rest := by
  induction text generalizing a with
  | nil => simp
  | cons c text ih =>
    simp only [List.cons_append, at_cons, ih, List.length_cons, and_assoc, add_assoc,
      add_comm 1]

theorem At.shift (h : At m b text) (hsame : ∀ i < text.length, m' (a + i) = m (b + i)) :
    At m' a text := by
  induction text generalizing a b with
  | nil => trivial
  | cons c text ih =>
    refine ⟨(hsame 0 (by simp)).trans h.1, ih h.2 fun i hi => ?_⟩
    have hbyte := hsame (i + 1) (by simpa using hi)
    rwa [add_comm i, ← add_assoc, ← add_assoc] at hbyte

theorem At.congr (h : At m a text) (hsame : AgreeOn m m' a (a + text.length)) : At m' a text :=
  h.shift fun i hi => hsame (a + i) (Nat.le_add_right a i) (Nat.add_lt_add_left hi a)

theorem at_of_getD (h : ∀ i < text.length, m (a + i) = text.getD i 0) : At m a text := by
  induction text generalizing a with
  | nil => trivial
  | cons c text ih =>
    refine ⟨h 0 (by simp), ih fun i hi => ?_⟩
    rw [add_right_comm, add_assoc, h (i + 1) (by simpa using hi), List.getD_cons_succ]

theorem At.byte (h : At m a text) {i : ℕ} (hi : i < text.length) : m (a + i) = text[i] := by
  induction text generalizing a i with
  | nil => simp at hi
  | cons c text ih =>
    cases i with
    | zero => exact h.1
    | succ i =>
      rw [List.getElem_cons_succ, ← ih h.2 (by simpa using hi), add_right_comm, add_assoc]

theorem string_eq (h : At m a text) (hend : m (a + text.length) = 0) (hzero : (0 : UInt8) ∉ text)
    (hlimit : text.length < limit) : m.string limit a = text := by
  induction text generalizing a limit with
  | nil =>
    obtain ⟨limit, rfl⟩ : ∃ k, limit = k + 1 := ⟨limit - 1, by simp at hlimit; omega⟩
    rw [string, if_pos (by simpa using hend)]
  | cons c text ih =>
    obtain ⟨limit, rfl⟩ : ∃ k, limit = k + 1 := ⟨limit - 1, by simp at hlimit; omega⟩
    have hc : m a ≠ 0 := fun h' => hzero (by rw [← h', h.1]; exact List.mem_cons_self)
    rw [string, if_neg hc, h.1]
    congr 1
    refine ih h.2 ?_ (fun hmem => hzero (List.mem_cons_of_mem c hmem)) (by simpa using hlimit)
    rwa [List.length_cons, ← add_assoc, add_right_comm] at hend

theorem At.assign (h : At m a text) (hb : b < a ∨ a + text.length ≤ b) : At (assign m b c) a text :=
  h.congr fun x hlo hhi => assign_of_ne _ _ (by omega)

end Lib.Memory
