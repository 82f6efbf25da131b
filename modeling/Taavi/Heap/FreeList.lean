import Taavi.Heap.Kmalloc
import Taavi.Lib.Tiling

/-!
# The free list in memory

The free list of a memory: headers whose `next` words chain the blocks in address order. The loops
of the allocator are specified on such lists.
-/

namespace Taavi.Heap

open Lib

section

variable {A : Arch} {m : Memory} {block v : ℕ}

theorem headerSize_pos (A : Arch) : 0 < headerSize A := by cases A <;> decide

theorem wrap_of_lt {n : ℕ} (h : n < A.addressSpace) : A.wrap n = n := Nat.mod_eq_of_lt h

@[simp] theorem magicOf_setMagic : magicOf A (setMagic A m block v) block = A.wrap v :=
  Memory.read_write_same m block A.word v

@[simp] theorem sizeOf_setSize : sizeOf A (setSize A m block v) block = A.wrap v :=
  Memory.read_write_same m (block + A.word) A.word v

@[simp] theorem nextOf_setNext : nextOf A (setNext A m block v) block = A.wrap v :=
  Memory.read_write_same m (block + 2 * A.word) A.word v

@[simp] theorem magicOf_setSize : magicOf A (setSize A m block v) block = magicOf A m block :=
  Memory.read_write_of_disjoint (by omega)

@[simp] theorem magicOf_setNext : magicOf A (setNext A m block v) block = magicOf A m block :=
  Memory.read_write_of_disjoint (by omega)

@[simp] theorem sizeOf_setMagic : sizeOf A (setMagic A m block v) block = sizeOf A m block :=
  Memory.read_write_of_disjoint (by omega)

@[simp] theorem sizeOf_setNext : sizeOf A (setNext A m block v) block = sizeOf A m block :=
  Memory.read_write_of_disjoint (by omega)

@[simp] theorem nextOf_setSize : nextOf A (setSize A m block v) block = nextOf A m block :=
  Memory.read_write_of_disjoint (by omega)

theorem nextOf_lt : nextOf A m block < A.addressSpace := Memory.read_lt m _ A.word

theorem setMagic_apply {x : ℕ} (h : x < block ∨ block + headerSize A ≤ x) :
    setMagic A m block v x = m x :=
  Memory.write_of_disjoint (by unfold headerSize at h; omega)

theorem setSize_apply {x : ℕ} (h : x < block ∨ block + headerSize A ≤ x) :
    setSize A m block v x = m x :=
  Memory.write_of_disjoint (by unfold headerSize at h; omega)

theorem setNext_apply {x : ℕ} (h : x < block ∨ block + headerSize A ≤ x) :
    setNext A m block v x = m x :=
  Memory.write_of_disjoint (by unfold headerSize at h; omega)

theorem fields_congr {m' : Memory} (h : m.AgreeOn m' block (block + headerSize A)) :
    magicOf A m' block = magicOf A m block ∧ sizeOf A m' block = sizeOf A m block ∧
      nextOf A m' block = nextOf A m block := by
  unfold headerSize at h
  refine ⟨?_, ?_, ?_⟩
  all_goals exact Memory.read_congr fun x hlo hhi => h x (by omega) (by omega)

end

/-- The address of the first block of a list, or `last` when there is none. -/
def headAddr (last : ℕ) : List Block → ℕ
  | [] => last
  | b :: _ => b.addr

/-- The address of the last block of a list, or `first` when there is none. -/
def lastAddr : ℕ → List Block → ℕ
  | first, [] => first
  | _, b :: bs => lastAddr b.addr bs

def HeaderAt (A : Arch) (m : Memory) (b : Block) : Prop :=
  magicOf A m b.addr = heapMagic ∧ sizeOf A m b.addr = b.size

/-- The `next` words chain the blocks in order, and the last one is `last`. -/
def Linked (A : Arch) (m : Memory) (last : ℕ) : List Block → Prop
  | [] => True
  | b :: bs => nextOf A m b.addr = headAddr last bs ∧ Linked A m last bs

def freeBytes (A : Arch) (fs : List Block) : ℕ := (fs.map fun b => headerSize A + b.size).sum

/-- A list of blocks, in address order, that the headers in memory describe and chain, up to `last`,
which is `NULL` for a whole free list. -/
structure FreeListAt (A : Arch) (m : Memory) (last : ℕ) (fs : List Block) : Prop where
  header : ∀ b ∈ fs, HeaderAt A m b
  linked : Linked A m last fs
  spaced : Spaced (headerSize A) fs
  pos : ∀ b ∈ fs, 0 < b.addr
  bound : ∀ b ∈ fs, b.stop (headerSize A) < A.addressSpace

section

variable {A : Arch} {m m' : Memory} {last : ℕ}

variable {fs pre post : List Block} {a b : Block}

theorem FreeListAt.tail (h : FreeListAt A m last (a :: fs)) : FreeListAt A m last fs where
  header b hb := h.header b (List.mem_cons_of_mem _ hb)
  linked := h.linked.2
  spaced := (List.pairwise_cons.mp h.spaced).2
  pos b hb := h.pos b (List.mem_cons_of_mem _ hb)
  bound b hb := h.bound b (List.mem_cons_of_mem _ hb)

theorem FreeListAt.head_stop_le
    (h : FreeListAt A m last (a :: fs)) (hb : b ∈ fs) :
    a.stop (headerSize A) ≤ b.addr :=
  (List.pairwise_cons.mp h.spaced).1 b hb

theorem Linked.congr (h : Linked A m last fs)
    (hnext : ∀ b ∈ fs, nextOf A m' b.addr = nextOf A m b.addr) : Linked A m' last fs := by
  induction fs with
  | nil => trivial
  | cons b fs ih =>
    refine ⟨?_, ih h.2 fun c hc => hnext c (List.mem_cons_of_mem _ hc)⟩
    rw [hnext b (by simp)]
    exact h.1

theorem linked_append {gs : List Block} :
    Linked A m last (fs ++ gs) ↔ Linked A m (headAddr last gs) fs ∧ Linked A m last gs := by
  induction fs with
  | nil => simp [Linked]
  | cons a fs ih =>
    have hhead : headAddr last (fs ++ gs) = headAddr (headAddr last gs) fs := by
      cases fs <;> rfl
    simp only [List.cons_append, Linked, ih, hhead, and_assoc]

theorem FreeListAt.congr (h : FreeListAt A m last fs)
    (hagree : ∀ b ∈ fs, m.AgreeOn m' b.addr (b.addr + headerSize A)) :
    FreeListAt A m' last fs where
  header b hb := by
    have hfields := fields_congr (hagree b hb)
    exact ⟨hfields.1.trans (h.header b hb).1, hfields.2.1.trans (h.header b hb).2⟩
  linked := h.linked.congr fun b hb => (fields_congr (hagree b hb)).2.2
  spaced := h.spaced
  pos := h.pos
  bound := h.bound

theorem sum_exits (total : ℕ) (h : FreeListAt A m 0 fs)
    (hfit : total + freeBytes A fs < A.addressSpace) :
    Exits (sumBody A m) (headAddr 0 fs, total) fs.length (total + freeBytes A fs) := by
  induction fs generalizing total with
  | nil => exact Exits.leave (by simp [sumBody, headAddr, freeBytes])
  | cons b fs ih =>
    have hpos := h.pos b (by simp)
    have hsize := (h.header b (by simp)).2
    have hnext := h.linked.1
    have hsplit : freeBytes A (b :: fs) = headerSize A + b.size + freeBytes A fs := by
      simp [freeBytes]
    have hstep : sumBody A m (headAddr 0 (b :: fs), total) =
        .inl (headAddr 0 fs, total + (headerSize A + b.size)) := by
      have hwrap : A.wrap (total + (headerSize A + b.size)) = total + (headerSize A + b.size) :=
        wrap_of_lt (by omega)
      simp [sumBody, headAddr, hpos.ne', hsize, hnext, hwrap]
    rw [hsplit, ← add_assoc]
    exact Exits.next hstep (ih _ h.tail (by omega))

theorem place_exits (addr first : ℕ)
    (h : FreeListAt A m 0 (pre ++ post)) (hpre : ∀ b ∈ pre, b.addr < addr)
    (hpost : ∀ b ∈ post, addr ≤ b.addr) :
    Exits (placeBody A m addr) (first, headAddr 0 (pre ++ post)) pre.length
      (lastAddr first pre, headAddr 0 post) := by
  induction pre generalizing first with
  | nil =>
    refine Exits.leave ?_
    cases post with
    | nil => simp [placeBody, headAddr, lastAddr]
    | cons c post =>
      have hc := hpost c (by simp)
      simp [placeBody, headAddr, lastAddr, Nat.not_lt.mpr hc]
  | cons b pre ih =>
    have hpos := h.pos b (by simp)
    have hlt := hpre b (by simp)
    have hnext := h.linked.1
    refine Exits.next ?_ (ih b.addr h.tail fun c hc => hpre c (by simp [hc]))
    simp [placeBody, headAddr, hpos.ne', hlt, hnext]

theorem fit_exits_some {size : ℕ} (first : ℕ)
    (h : FreeListAt A m 0 (pre ++ b :: post)) (hpre : ∀ c ∈ pre, c.size < size)
    (hb : size ≤ b.size) :
    Exits (fitBody A m size) (first, headAddr 0 (pre ++ b :: post)) pre.length
      (some (lastAddr first pre, b.addr)) := by
  induction pre generalizing first with
  | nil =>
    have hpos := h.pos b (by simp)
    have hsize := (h.header b (by simp)).2
    exact Exits.leave (by simp [fitBody, headAddr, lastAddr, hpos.ne', hsize, hb])
  | cons c pre ih =>
    have hpos := h.pos c (by simp)
    have hsize := (h.header c (by simp)).2
    have hlt := hpre c (by simp)
    have hnext := h.linked.1
    refine Exits.next ?_ (ih c.addr h.tail fun d hd => hpre d (by simp [hd]))
    simp [fitBody, headAddr, hpos.ne', hsize, Nat.not_le.mpr hlt, hnext]

theorem fit_exits_none {size : ℕ} (first : ℕ) (h : FreeListAt A m 0 fs)
    (hsmall : ∀ c ∈ fs, c.size < size) :
    Exits (fitBody A m size) (first, headAddr 0 fs) fs.length none := by
  induction fs generalizing first with
  | nil => exact Exits.leave (by simp [fitBody, headAddr])
  | cons c fs ih =>
    have hpos := h.pos c (by simp)
    have hsize := (h.header c (by simp)).2
    have hlt := hsmall c (by simp)
    have hnext := h.linked.1
    refine Exits.next ?_ (ih c.addr h.tail fun d hd => hsmall d (by simp [hd]))
    simp [fitBody, headAddr, hpos.ne', hsize, Nat.not_le.mpr hlt, hnext]

end

end Taavi.Heap
