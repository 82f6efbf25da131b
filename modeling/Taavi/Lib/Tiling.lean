import Mathlib.Data.List.Chain
import Mathlib.Tactic.Ring

/-!
# Tilings of an interval by headed blocks

A block is a header and a payload, free or in use. A list of blocks tiles an interval when each
starts where the previous one stops. Coalescing joins neighbouring free blocks.
-/

namespace Lib

open List

/-- A header at `addr` followed by `size` bytes of payload. -/
structure Block where
  /-- Address of the header. -/
  addr : ℕ
  /-- Length of the payload. -/
  size : ℕ
  /-- Whether the payload is available. -/
  free : Bool
  deriving DecidableEq, Repr

namespace Block

/-- The first address after a block whose header takes `hdr` bytes. -/
def stop (hdr : ℕ) (b : Block) : ℕ := b.addr + hdr + b.size

/-- A block extended over the header and the payload of the next one. -/
def join (hdr : ℕ) (a b : Block) : Block := { a with size := a.size + (hdr + b.size) }

@[simp] theorem join_addr (hdr : ℕ) (a b : Block) : (a.join hdr b).addr = a.addr := rfl

@[simp] theorem join_size (hdr : ℕ) (a b : Block) :
    (a.join hdr b).size = a.size + (hdr + b.size) := rfl

@[simp] theorem join_free (hdr : ℕ) (a b : Block) : (a.join hdr b).free = a.free := rfl

/-- The same block, marked as free or in use. -/
def mark (b : Block) (free : Bool) : Block := { b with free := free }

/-- The first `size` bytes of a block's payload, under its header. -/
def front (size : ℕ) (b : Block) : Block := { b with size := size }

/-- The rest of a block behind the first `size` bytes of its payload, under a
header of its own. -/
def back (hdr size : ℕ) (b : Block) : Block :=
  { b with addr := b.addr + hdr + size, size := b.size - size - hdr }

@[simp] theorem mark_addr (b : Block) (free : Bool) : (b.mark free).addr = b.addr := rfl

@[simp] theorem mark_size (b : Block) (free : Bool) : (b.mark free).size = b.size := rfl

@[simp] theorem mark_free (b : Block) (free : Bool) : (b.mark free).free = free := rfl

@[simp] theorem mark_stop (hdr : ℕ) (b : Block) (free : Bool) :
    (b.mark free).stop hdr = b.stop hdr := rfl

theorem front_stop (hdr size : ℕ) (b : Block) :
    (b.front size).stop hdr = (b.back hdr size).addr := rfl

theorem back_stop {hdr size : ℕ} {b : Block} (h : size + hdr ≤ b.size) :
    (b.back hdr size).stop hdr = b.stop hdr := by
  simp only [back, stop]
  omega

theorem join_stop {hdr : ℕ} {a b : Block} (h : a.stop hdr = b.addr) :
    (a.join hdr b).stop hdr = b.stop hdr := by
  simp only [stop, join] at *
  omega

end Block

/-- The blocks cover `[lo, hi)` in order, without a gap and without overlap. -/
def Tiles (hdr : ℕ) : ℕ → ℕ → List Block → Prop
  | lo, hi, [] => lo = hi
  | lo, hi, b :: bs => b.addr = lo ∧ Tiles hdr (b.stop hdr) hi bs

/-- Blocks in address order that do not overlap. -/
def Spaced (hdr : ℕ) (bs : List Block) : Prop := bs.Pairwise fun a b => a.stop hdr ≤ b.addr

section

variable {hdr lo hi : ℕ} {bs : List Block}

variable {b : Block} {pre post : List Block}

theorem tiles_append {as : List Block} :
    Tiles hdr lo hi (as ++ bs) ↔ ∃ mid, Tiles hdr lo mid as ∧ Tiles hdr mid hi bs := by
  induction as generalizing lo with
  | nil => simp [Tiles]
  | cons a as ih => simp only [cons_append, Tiles, ih, exists_and_left, and_assoc]

theorem Tiles.le (h : Tiles hdr lo hi bs) : lo ≤ hi := by
  induction bs generalizing lo with
  | nil => exact h.le
  | cons b bs ih =>
    have hrest := ih h.2
    have haddr := h.1
    unfold Block.stop at hrest
    omega

theorem Tiles.bounds (h : Tiles hdr lo hi bs) (hb : b ∈ bs) : lo ≤ b.addr ∧ b.stop hdr ≤ hi := by
  induction bs generalizing lo with
  | nil => simp at hb
  | cons a bs ih =>
    obtain ⟨haddr, hrest⟩ := h
    rcases mem_cons.mp hb with rfl | hb
    · exact ⟨haddr.ge, hrest.le⟩
    · have hbound := ih hrest hb
      unfold Block.stop at *
      omega

theorem Tiles.spaced (h : Tiles hdr lo hi bs) : Spaced hdr bs := by
  induction bs generalizing lo with
  | nil => exact List.Pairwise.nil
  | cons a bs ih => exact List.Pairwise.cons (fun b hb => (h.2.bounds hb).1) (ih h.2)

theorem Tiles.mark (free : Bool)
    (h : Tiles hdr lo hi (pre ++ b :: post)) : Tiles hdr lo hi (pre ++ b.mark free :: post) := by
  obtain ⟨mid, hpre, hrest⟩ := tiles_append.mp h
  exact tiles_append.mpr ⟨mid, hpre, hrest.1, hrest.2⟩

theorem Tiles.split {size : ℕ} (hfit : size + hdr ≤ b.size)
    (h : Tiles hdr lo hi (pre ++ b :: post)) :
    Tiles hdr lo hi (pre ++ b.front size :: b.back hdr size :: post) := by
  obtain ⟨mid, hpre, haddr, hrest⟩ := tiles_append.mp h
  refine tiles_append.mpr ⟨mid, hpre, haddr, rfl, ?_⟩
  rwa [Block.back_stop hfit]

theorem Tiles.sides (h : Tiles hdr lo hi (pre ++ b :: post)) :
    (∀ c ∈ pre, c.stop hdr ≤ b.addr) ∧ ∀ c ∈ post, b.stop hdr ≤ c.addr := by
  obtain ⟨-, hrest, hcross⟩ := pairwise_append.mp h.spaced
  exact ⟨fun c hc => hcross c hc b (by simp), (pairwise_cons.mp hrest).1⟩

theorem Spaced.disjoint (h : Spaced hdr bs) {a : Block} (ha : a ∈ bs) (hb : b ∈ bs)
    (hne : a ≠ b) : a.stop hdr ≤ b.addr ∨ b.stop hdr ≤ a.addr := by
  have hsymm : bs.Pairwise fun a b => a.stop hdr ≤ b.addr ∨ b.stop hdr ≤ a.addr :=
    List.Pairwise.imp Or.inl h
  have : Std.Symm fun a b : Block => a.stop hdr ≤ b.addr ∨ b.stop hdr ≤ a.addr :=
    ⟨fun _ _ => Or.symm⟩
  exact hsymm.forall ha hb hne

theorem Spaced.total_le (h : Spaced hdr bs) (hle : lo ≤ hi) (hlo : ∀ b ∈ bs, lo ≤ b.addr)
    (hhi : ∀ b ∈ bs, b.stop hdr ≤ hi) : lo + (bs.map fun b => hdr + b.size).sum ≤ hi := by
  induction bs generalizing lo with
  | nil => simpa using hle
  | cons a bs ih =>
    obtain ⟨hfst, hrest⟩ := pairwise_cons.mp h
    have ha := hlo a (by simp)
    have htail := ih hrest (hhi a (by simp)) hfst fun b hb => hhi b (by simp [hb])
    simp only [map_cons, sum_cons]
    unfold Block.stop at htail
    omega

end

/-- Join neighbouring free blocks of a tiling, from left to right. -/
def coalesce (hdr : ℕ) : List Block → List Block
  | [] => []
  | [a] => [a]
  | a :: b :: rest =>
    if a.free = true ∧ b.free = true then coalesce hdr (a.join hdr b :: rest)
    else a :: coalesce hdr (b :: rest)
termination_by bs => bs.length

/-- Join the free blocks that touch, from left to right. -/
def joinFree (hdr : ℕ) : List Block → List Block
  | [] => []
  | [a] => [a]
  | a :: b :: rest =>
    if a.stop hdr = b.addr then joinFree hdr (a.join hdr b :: rest)
    else a :: joinFree hdr (b :: rest)
termination_by bs => bs.length

/-- No two neighbouring blocks are both free. -/
def Coalesced (bs : List Block) : Prop :=
  bs.IsChain fun a b => ¬(a.free = true ∧ b.free = true)

section

variable {hdr lo hi : ℕ} {bs : List Block}

theorem Tiles.coalesce (h : Tiles hdr lo hi bs) : Tiles hdr lo hi (coalesce hdr bs) := by
  induction bs using Lib.coalesce.induct hdr generalizing lo with
  | case1 => simpa [Lib.coalesce] using h
  | case2 a => simpa [Lib.coalesce] using h
  | case3 a b rest hfree ih =>
    rw [Lib.coalesce, if_pos hfree]
    obtain ⟨haddr, hb, hrest⟩ := h
    refine ih ⟨haddr, ?_⟩
    rwa [Block.join_stop hb.symm]
  | case4 a b rest hfree ih =>
    rw [Lib.coalesce, if_neg hfree]
    exact ⟨h.1, ih h.2⟩

theorem coalesce_cons (hdr : ℕ) (a : Block) (rest : List Block) :
    ∃ a' rest', coalesce hdr (a :: rest) = a' :: rest' ∧ a'.addr = a.addr ∧ a'.free = a.free := by
  induction rest generalizing a with
  | nil => exact ⟨a, [], by simp [coalesce], rfl, rfl⟩
  | cons b rest ih =>
    rw [coalesce]
    split
    · obtain ⟨a', rest', heq, haddr, hfree⟩ := ih (a.join hdr b)
      exact ⟨a', rest', heq, haddr, hfree⟩
    · exact ⟨a, _, rfl, rfl, rfl⟩

theorem coalesced_coalesce (hdr : ℕ) (bs : List Block) : Coalesced (coalesce hdr bs) := by
  induction bs using Lib.coalesce.induct hdr with
  | case1 => simp [coalesce, Coalesced]
  | case2 a => simp [coalesce, Coalesced]
  | case3 a b rest hfree ih => rwa [coalesce, if_pos hfree]
  | case4 a b rest hfree ih =>
    rw [coalesce, if_neg hfree]
    obtain ⟨b', rest', heq, -, hb⟩ := coalesce_cons hdr b rest
    rw [heq] at ih ⊢
    exact List.IsChain.cons_cons (by rwa [hb]) ih

theorem filter_used_coalesce (hdr : ℕ) (bs : List Block) :
    (coalesce hdr bs).filter (fun b => !b.free) = bs.filter (fun b => !b.free) := by
  induction bs using Lib.coalesce.induct hdr with
  | case1 => simp [coalesce]
  | case2 a => simp [coalesce]
  | case3 a b rest hfree ih =>
    rw [coalesce, if_pos hfree, ih]
    simp [hfree.1, hfree.2]
  | case4 a b rest hfree ih =>
    rw [coalesce, if_neg hfree, filter_cons, ih]
    conv_rhs => rw [filter_cons]

theorem joinFree_cons_of_lt {a : Block} {fs : List Block}
    (h : ∀ b ∈ fs, a.stop hdr < b.addr) : joinFree hdr (a :: fs) = a :: joinFree hdr fs := by
  cases fs with
  | nil => simp [joinFree]
  | cons b rest =>
    have hb := h b (by simp)
    rw [joinFree, if_neg (by omega)]

theorem joinFree_cons (hdr : ℕ) (a : Block) (rest : List Block) :
    ∃ a' rest', joinFree hdr (a :: rest) = a' :: rest' ∧ a'.addr = a.addr := by
  induction rest generalizing a with
  | nil => exact ⟨a, [], by simp [joinFree], rfl⟩
  | cons b rest ih =>
    rw [joinFree]
    split
    · obtain ⟨a', rest', heq, haddr⟩ := ih (a.join hdr b)
      exact ⟨a', rest', heq, haddr⟩
    · exact ⟨a, _, rfl, rfl⟩

theorem addr_of_mem_joinFree {c : Block} (h : c ∈ joinFree hdr bs) : ∃ b ∈ bs, c.addr = b.addr := by
  induction bs using joinFree.induct hdr with
  | case1 => simp [joinFree] at h
  | case2 a => exact ⟨a, by simp, by simp [show c = a by simpa [joinFree] using h]⟩
  | case3 a b rest htouch ih =>
    rw [joinFree, if_pos htouch] at h
    obtain ⟨d, hd, haddr⟩ := ih h
    rcases mem_cons.mp hd with rfl | hd
    · exact ⟨a, by simp, haddr⟩
    · exact ⟨d, by simp [hd], haddr⟩
  | case4 a b rest htouch ih =>
    rw [joinFree, if_neg htouch] at h
    rcases mem_cons.mp h with rfl | h
    · exact ⟨c, by simp, rfl⟩
    · obtain ⟨d, hd, haddr⟩ := ih h
      exact ⟨d, mem_cons_of_mem _ hd, haddr⟩

theorem Coalesced.use {pre post : List Block} {b : Block} (h : Coalesced (pre ++ b :: post)) :
    Coalesced (pre ++ b.mark false :: post) := by
  obtain ⟨hpre, hpost, -⟩ := isChain_append.mp h
  refine isChain_append.mpr ⟨hpre, ?_, ?_⟩
  · exact isChain_cons.mpr ⟨by simp, (isChain_cons.mp hpost).2⟩
  · simp

theorem Coalesced.use_front {pre post : List Block} {b : Block} {size : ℕ}
    (h : Coalesced (pre ++ b :: post)) :
    Coalesced (pre ++ (b.front size).mark false :: b.back hdr size :: post) := by
  obtain ⟨hpre, hpost, -⟩ := isChain_append.mp h
  obtain ⟨hnext, hrest⟩ := isChain_cons.mp hpost
  refine isChain_append.mpr ⟨hpre, ?_, by simp⟩
  refine isChain_cons.mpr ⟨by simp, isChain_cons.mpr ⟨?_, hrest⟩⟩
  exact hnext

/-- In a tiling free blocks touch exactly when they are neighbours. -/
theorem filter_free_coalesce (hpos : 0 < hdr) (h : Tiles hdr lo hi bs) :
    (coalesce hdr bs).filter Block.free = joinFree hdr (bs.filter Block.free) := by
  induction bs using Lib.coalesce.induct hdr generalizing lo with
  | case1 => simp [coalesce, joinFree]
  | case2 a => cases ha : a.free <;> simp [coalesce, joinFree, ha]
  | case3 a b rest hfree ih =>
    obtain ⟨haddr, hb, hrest⟩ := h
    have hjoin : Tiles hdr lo hi (a.join hdr b :: rest) := by
      refine ⟨haddr, ?_⟩
      rwa [Block.join_stop hb.symm]
    rw [coalesce, if_pos hfree, ih hjoin]
    simp only [filter_cons, hfree.1, hfree.2, Block.join_free, if_true]
    rw [joinFree, if_pos hb.symm]
  | case4 a b rest hfree ih =>
    have hrest := ih h.2
    rw [coalesce, if_neg hfree, filter_cons, hrest]
    cases ha : a.free with
    | false => simp [filter_cons, ha]
    | true =>
      have hb : b.free = false := by simpa [ha] using hfree
      have hfar : ∀ f ∈ rest.filter Block.free, a.stop hdr < f.addr := by
        intro f hf
        have hf' := (h.2.2.bounds (mem_of_mem_filter hf)).1
        have hb' := h.2.1
        unfold Block.stop at *
        omega
      simp only [filter_cons, ha, hb, if_true, Bool.false_eq_true, if_false]
      rw [joinFree_cons_of_lt hfar]

end

end Lib
