import Taavi.Heap.Surgery

/-!
# The allocator's functions on a free list

The functions that walk the whole free list: each returns, and says which list it leaves and which
bytes it may have changed.
-/

namespace Taavi.Heap

open Lib

variable {A : Arch} {m : Memory} {s : State} {a b : Block} {fs pre post : List Block}

theorem FreeListAt.freeBytes_lt {last : ℕ} (h : FreeListAt A m last fs) :
    freeBytes A fs < A.addressSpace := by
  have hspace : 0 < A.addressSpace := Nat.pow_pos (by decide)
  have htotal : 0 + freeBytes A fs ≤ A.addressSpace - 1 := by
    refine h.spaced.total_le (by omega) (fun b _ => Nat.zero_le _) fun b hb => ?_
    have hb := h.bound b hb
    omega
  omega

theorem FreeListAt.length_lt {last : ℕ} (h : FreeListAt A m last fs) :
    fs.length < A.addressSpace := by
  have hbytes : fs.length ≤ freeBytes A fs := by
    have hhdr := headerSize_pos A
    unfold freeBytes
    clear h
    induction fs with
    | nil => simp
    | cons b fs ih =>
      simp only [List.length_cons, List.map_cons, List.sum_cons]
      omega
  exact hbytes.trans_lt h.freeBytes_lt

theorem updateRemainingHeapSize_eq (h : FreeListAt A s.mem 0 fs)
    (hhead : s.freeList = headAddr 0 fs) :
    updateRemainingHeapSize A s = some { s with remainingHeapSize := freeBytes A fs } := by
  have hsum := sum_exits 0 h (by simpa using h.freeBytes_lt)
  have hloop := hsum.loop_eq h.length_lt
  simp [updateRemainingHeapSize, hhead, hloop]

theorem headAddr_joinFree (last hdr : ℕ) (fs : List Block) :
    headAddr last (joinFree hdr fs) = headAddr last fs := by
  cases fs with
  | nil => simp [joinFree]
  | cons b fs =>
    obtain ⟨b', rest', heq, haddr⟩ := joinFree_cons hdr b fs
    rw [heq]
    exact haddr

theorem merge_eq {rest : List Block} (h : FreeListAt A s.mem 0 (a :: rest))
    (hhead : s.freeList = a.addr) :
    ∃ m', merge A s = some ({ s with
          mem := m'
          remainingHeapSize := freeBytes A (joinFree (headerSize A) (a :: rest)) }, true) ∧
      FreeListAt A m' 0 (joinFree (headerSize A) (a :: rest)) ∧
      ∀ x, Outside A (a :: rest) x → m' x = s.mem x := by
  obtain ⟨k, m', hk, hexits, hlist, hframe⟩ := merge_exits h
  have hlen := h.length_lt
  have hloop : loop (mergeBody A) A.addressSpace (s.mem, s.freeList) = some (m', true) := by
    rw [hhead]
    exact hexits.loop_eq (by simp at hlen; omega)
  have hhead' : s.freeList = headAddr 0 (joinFree (headerSize A) (a :: rest)) := by
    rw [headAddr_joinFree, hhead, headAddr]
  have hupdate := updateRemainingHeapSize_eq (s := { s with mem := m' }) hlist hhead'
  exact ⟨m', by simp [merge, hloop, hupdate], hlist, hframe⟩

theorem FreeListAt.lastAddr_eq_zero {last : ℕ} (h : FreeListAt A m last pre) :
    lastAddr 0 pre = 0 ↔ pre = [] := by
  cases pre with
  | nil => simp [lastAddr]
  | cons c pre =>
    obtain ⟨d, hd, haddr⟩ := lastAddr_mem 0 c pre
    have hpos := h.pos d hd
    simp only [haddr, reduceCtorEq, iff_false]
    omega

theorem kfreeBlock_eq (h : FreeListAt A s.mem 0 (pre ++ post))
    (hhead : s.freeList = headAddr 0 (pre ++ post)) (hb : HeaderAt A s.mem b)
    (hpre : ∀ c ∈ pre, c.stop (headerSize A) ≤ b.addr)
    (hpost : ∀ c ∈ post, b.stop (headerSize A) ≤ c.addr) (hpos : 0 < b.addr)
    (hbound : b.stop (headerSize A) < A.addressSpace) :
    ∃ m', kfreeBlock A s (b.addr + headerSize A) = some ({ s with
          mem := m'
          freeList := headAddr 0 (joinFree (headerSize A) (pre ++ b :: post))
          remainingHeapSize := freeBytes A (joinFree (headerSize A) (pre ++ b :: post)) }, true) ∧
      FreeListAt A m' 0 (joinFree (headerSize A) (pre ++ b :: post)) ∧
      ∀ x, Outside A (pre ++ b :: post) x → m' x = s.mem x := by
  have hhdr := headerSize_pos A
  have hstop : b.stop (headerSize A) = b.addr + headerSize A + b.size := rfl
  have haddr : A.wrap (b.addr + headerSize A + A.addressSpace - headerSize A) = b.addr := by
    unfold Arch.wrap
    rw [show b.addr + headerSize A + A.addressSpace - headerSize A = b.addr + A.addressSpace by
      omega, Nat.add_mod_right, Nat.mod_eq_of_lt (by omega)]
  have hplace := place_exits b.addr 0 h (fun c hc => by
      have hcb := hpre c hc
      simp only [Block.stop] at hcb
      omega)
    (fun c hc => by
      have hbc := hpost c hc
      omega)
  have hlen := h.length_lt
  have hloop : loop (placeBody A s.mem b.addr) A.addressSpace (0, headAddr 0 (pre ++ post)) =
      some (lastAddr 0 pre, headAddr 0 post) :=
    hplace.loop_eq (by simp at hlen; omega)
  have hnew : headAddr 0 post ≠ b.addr := by
    cases post with
    | nil => exact hpos.ne
    | cons c post =>
      have hbc := hpost c (by simp)
      simp only [headAddr]
      omega
  obtain ⟨hlist, hframe⟩ := h.insert hb hpre hpost hpos hbound
  have hlast := (freeListAt_append.mp h).1.lastAddr_eq_zero
  obtain ⟨f, rest, hsplit⟩ : ∃ f rest, pre ++ b :: post = f :: rest := by
    cases pre with
    | nil => exact ⟨b, post, rfl⟩
    | cons c pre => exact ⟨c, _, rfl⟩
  have hmem : kfreeBlock A s (b.addr + headerSize A) = merge A { s with
        mem := relink A (setNext A s.mem b.addr (headAddr 0 post)) pre b.addr
        freeList := f.addr } := by
    unfold relink
    simp only [kfreeBlock, haddr, hb.1, hhead, hloop]
    by_cases hnil : pre = []
    · obtain rfl : b = f := by
        subst hnil
        exact (List.cons.inj hsplit).1
      simp [hnew, hlast.mpr hnil]
    · have hfst : headAddr 0 (pre ++ post) = f.addr := by
        cases pre with
        | nil => exact absurd rfl hnil
        | cons c pre => simp [headAddr, (List.cons.inj hsplit).1]
      simp [hnew, mt hlast.mp hnil, hfst]
  rw [hsplit] at hlist ⊢
  obtain ⟨m', hmerge, hlist', hframe'⟩ := merge_eq (s := { s with
        mem := relink A (setNext A s.mem b.addr (headAddr 0 post)) pre b.addr
        freeList := f.addr }) hlist rfl
  refine ⟨m', ?_, hlist', fun x hx => ?_⟩
  · rw [hmem, hmerge, headAddr_joinFree, headAddr]
  · rw [hframe' x hx]
    refine hframe x fun c hc => hx c ?_
    rw [← hsplit]
    simp only [List.mem_append, List.mem_cons, List.not_mem_nil, or_false] at hc ⊢
    tauto

end Taavi.Heap
