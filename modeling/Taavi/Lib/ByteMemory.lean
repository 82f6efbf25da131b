import Mathlib.Tactic.Ring

/-!
# Byte-addressed memory with little-endian words

Words of any width are read and written byte by byte, least significant first. A read after a write,
disjoint reads, and the bytes that a read depends on.
-/

namespace Lib

/-- A memory assigns a byte to every address. -/
abbrev Memory := ℕ → UInt8

namespace Memory

variable {m m' : Memory} {a width v : ℕ}

/-- Read `width` bytes at an address as a little-endian number. -/
def read (m : Memory) : ℕ → ℕ → ℕ
  | _, 0 => 0
  | a, width + 1 => (m a).toNat + 256 * read m (a + 1) width

/-- Write the low `width` bytes of a number at an address, little endian. -/
def write (m : Memory) (a width v : ℕ) : Memory :=
  fun x => if a ≤ x ∧ x < a + width then UInt8.ofNat (v / 256 ^ (x - a) % 256) else m x

/-- Copy the first `n` bytes of another memory to an address. -/
def splice (m : Memory) (a : ℕ) (src : Memory) (n : ℕ) : Memory :=
  fun x => if a ≤ x ∧ x < a + n then src (x - a) else m x

/-- The memory from an address on. -/
def drop (m : Memory) (a : ℕ) : Memory := fun x => m (a + x)

/-- Two memories that agree on the bytes of an interval. -/
def AgreeOn (m m' : Memory) (lo hi : ℕ) : Prop :=
  ∀ x, lo ≤ x → x < hi → m' x = m x

theorem read_congr (h : AgreeOn m m' a (a + width)) : read m' a width = read m a width := by
  induction width generalizing a with
  | zero => rfl
  | succ width ih =>
    have hfst := h a le_rfl (by omega)
    have hrest := ih (a := a + 1) fun x hlo hhi => h x (by omega) (by omega)
    simp only [read, hfst, hrest]

theorem write_of_disjoint {x : ℕ} (h : x < a ∨ a + width ≤ x) : write m a width v x = m x := by
  unfold write
  rw [if_neg (by omega)]

theorem read_write_of_disjoint {b width' : ℕ}
    (h : b + width' ≤ a ∨ a + width ≤ b) :
    read (write m a width v) b width' = read m b width' :=
  read_congr fun _ hlo hhi => write_of_disjoint (by omega)

/-- Reading a number back out of its own bytes, starting at any of them. -/
private theorem read_write_from (m : Memory) (a v total skip width : ℕ) (h : skip + width ≤ total) :
    read (write m a total v) (a + skip) width = v / 256 ^ skip % 256 ^ width := by
  induction width generalizing skip with
  | zero => simp [read, Nat.mod_one]
  | succ width ih =>
    have hbyte : write m a total v (a + skip) = UInt8.ofNat (v / 256 ^ skip % 256) := by
      unfold write
      rw [if_pos (by omega), Nat.add_sub_cancel_left]
    have hrest := ih (skip + 1) (by omega)
    have hsplit : v / 256 ^ (skip + 1) = v / 256 ^ skip / 256 := by
      rw [pow_succ, Nat.div_div_eq_div_mul]
    rw [read, hbyte, show a + skip + 1 = a + (skip + 1) by omega, hrest, hsplit]
    have hsmall : (UInt8.ofNat (v / 256 ^ skip % 256)).toNat = v / 256 ^ skip % 256 := by
      rw [UInt8.toNat_ofNat']
      omega
    rw [hsmall, show 256 ^ (width + 1) = 256 * 256 ^ width by ring, Nat.mod_mul]

theorem read_write_same (m : Memory) (a width v : ℕ) :
    read (write m a width v) a width = v % 256 ^ width := by
  simpa using read_write_from m a v width 0 width (by omega)

theorem read_lt (m : Memory) (a width : ℕ) : read m a width < 256 ^ width := by
  induction width generalizing a with
  | zero => simp [read]
  | succ width ih =>
    have hbyte := (m a).toNat_lt
    have hrest := ih (a + 1)
    rw [read, pow_succ]
    omega

/-- The bytes of a word are determined by the number that they stand for. -/
theorem agreeOn_of_read_eq (h : read m' a width = read m a width) : AgreeOn m m' a (a + width) := by
  induction width generalizing a with
  | zero =>
    intro x hlow hhigh
    omega
  | succ width ih =>
    rw [read, read] at h
    have hbyte := (m a).toNat_lt
    have hbyte' := (m' a).toNat_lt
    have hfst : m' a = m a := UInt8.toNat_inj.mp (by omega)
    intro x hlow hhigh
    by_cases hx : x = a
    · rw [hx, hfst]
    · exact ih (a := a + 1) (by omega) x (by omega) (by omega)

theorem write_eq_self (h : read m a width = v % 256 ^ width) : write m a width v = m := by
  have hagree : AgreeOn m (write m a width v) a (a + width) :=
    agreeOn_of_read_eq ((read_write_same m a width v).trans h.symm)
  funext x
  by_cases hx : a ≤ x ∧ x < a + width
  · exact hagree x hx.1 hx.2
  · exact write_of_disjoint (by omega)

theorem AgreeOn.trans {m'' : Memory} {lo hi : ℕ} (h : AgreeOn m m' lo hi)
    (h' : AgreeOn m' m'' lo hi) : AgreeOn m m'' lo hi :=
  fun x hlo hhi => (h' x hlo hhi).trans (h x hlo hhi)

end Memory

end Lib
