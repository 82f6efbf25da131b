import Taavi.Heap.Invariant

/-!
# Giving out a block

`__kmalloc` splits the block that it finds and takes the front off the free list, which keeps the
invariant and the blocks in use.
-/

namespace Taavi.Heap

open Lib List

def usedBlocks (bs : List Block) : List Block := bs.filter fun b => !b.free

theorem mem_usedBlocks {b : Block} {bs : List Block} :
    b ∈ usedBlocks bs ↔ b ∈ bs ∧ b.free = false := by
  simp [usedBlocks]

/-- No block is found, or one that is large enough joins the blocks in use. -/
inductive Allocated (A : Arch) (size : ℕ) (bs bs' : List Block) : ℕ → Prop
  | null : usedBlocks bs' = usedBlocks bs → Allocated A size bs bs' 0
  | block {b : Block} {pre post : List Block} : size ≤ b.size →
      usedBlocks bs = pre ++ post → usedBlocks bs' = pre ++ b :: post →
      Allocated A size bs bs' (b.addr + headerSize A)

section

variable {A : Arch} {m : Memory} {s : State} {b : Block} {pre post : List Block}
variable {start stop size : ℕ}

theorem filter_free_of_free (hb : b.free = true) (pre post : List Block) :
    (pre ++ b :: post).filter Block.free =
      pre.filter Block.free ++ b :: post.filter Block.free := by simp [hb]

theorem Layout.split (h : Layout A m start stop (pre ++ b :: post)) (hb : b.free = true)
    (hfit : size + headerSize A + 1 ≤ b.size) :
    Layout A (splitBlock A m size b.addr) start stop
        (pre ++ b.front size :: b.back (headerSize A) size :: post) ∧
      Keeps A m (splitBlock A m size b.addr) (pre ++ b :: post) := by
  have hfilt := filter_free_of_free hb pre post
  have hfilt' : (pre ++ b.front size :: b.back (headerSize A) size :: post).filter Block.free =
      pre.filter Block.free ++
        b.front size :: b.back (headerSize A) size :: post.filter Block.free := by
    simp [Block.front, Block.back, hb]
  obtain ⟨hpre, hrest, hcross⟩ := freeListAt_append.mp (hfilt ▸ h.list)
  obtain ⟨hsplit, hframe⟩ := hrest.split hfit
  have hkeeps : Keeps A m (splitBlock A m size b.addr) (pre ++ b :: post) :=
    keeps_of_frame h.tiles fun x hx => hframe x fun c hc => hx c (by simp_all)
  have hbackStop : (b.back (headerSize A) size).stop (headerSize A) = b.stop (headerSize A) :=
    Block.back_stop (by omega)
  have hlist : FreeListAt A (splitBlock A m size b.addr) 0
      (pre.filter Block.free ++
        b.front size :: b.back (headerSize A) size :: post.filter Block.free) := by
    refine freeListAt_append.mpr ⟨hpre.congr fun c hc => ?_, hsplit, fun c hc d hd => ?_⟩
    · have hcb := hcross c hc b (by simp)
      refine agreeOn_of_outside hframe fun d hd => .inl ?_
      obtain rfl : d = b := by simpa using hd
      simp only [Block.stop] at hcb
      omega
    · have hcb := hcross c hc b (by simp)
      rcases mem_cons.mp hd with rfl | hd
      · exact hcb
      rcases mem_cons.mp hd with rfl | hd
      · simp only [Block.back]
        omega
      · exact hcross c hc d (by simp [hd])
  refine ⟨⟨h.tiles.split (by omega), fun c hc => ?_, hfilt' ▸ hlist, h.pos, h.nonempty⟩, hkeeps⟩
  cases hcf : c.free with
  | true => exact hlist.header c (hfilt' ▸ mem_filter.mpr ⟨hc, hcf⟩)
  | false =>
    have hold : c ∈ pre ++ b :: post := 
      mem_of_free_replaced (l := [_, _]) (k := [b]) hc hcf (by simp [Block.front, Block.back, hb])
    exact (h.header c hold).of_keeps hkeeps hold hcf

theorem Layout.unlink (h : Layout A m start stop (pre ++ b :: post)) (hb : b.free = true) :
    Layout A (relink A m (pre.filter Block.free) (nextOf A m b.addr)) start stop
        (pre ++ b.mark false :: post) ∧
      nextOf A m b.addr = headAddr 0 (post.filter Block.free) ∧
      Keeps A m (relink A m (pre.filter Block.free) (nextOf A m b.addr))
        (pre ++ b.mark false :: post) := by
  have hfilt := filter_free_of_free hb pre post
  have hfilt' : (pre ++ b.mark false :: post).filter Block.free =
      pre.filter Block.free ++ post.filter Block.free := by simp
  obtain ⟨hlist, hnext, hframe⟩ := (hfilt ▸ h.list).unlink
  have htiles := h.tiles.mark false
  have hkeeps : Keeps A m (relink A m (pre.filter Block.free) (nextOf A m b.addr))
      (pre ++ b.mark false :: post) :=
    keeps_of_frame htiles fun x hx => hframe x fun c hc => hx c (by
      rw [hfilt']
      exact mem_append_left _ hc)
  refine ⟨⟨htiles, fun c hc => ?_, hfilt' ▸ hlist, h.pos, h.nonempty⟩, hnext, hkeeps⟩
  cases hcf : c.free with
  | true => exact hlist.header c (hfilt' ▸ mem_filter.mpr ⟨hc, hcf⟩)
  | false =>
    refine HeaderAt.of_keeps ?_ hkeeps hc hcf
    simp only [mem_append, mem_cons] at hc
    rcases hc with hc | rfl | hc
    · exact h.header c (by simp [hc])
    · exact h.header b (by simp)
    · exact h.header c (by simp [hc])

theorem takeBlock_heapAt {fs : List Block}
    (h : Layout A (splitBlock A s.mem size b.addr) start s.currentHeapCeiling (pre ++ b :: post))
    (hb : b.free = true) (hhead : s.freeList = headAddr 0 (pre.filter Block.free ++ fs))
    (hcoalesced : Coalesced (pre ++ b.mark false :: post))
    (hceil : s.currentHeapCeiling ≤ A.heapCeil) :
    ∃ s', updateRemainingHeapSize A
        (takeBlock A s size (lastAddr 0 (pre.filter Block.free)) b.addr) = some s' ∧
      HeapAt A s' start (pre ++ b.mark false :: post) ∧
      Keeps A (splitBlock A s.mem size b.addr) s'.mem (pre ++ b.mark false :: post) := by
  obtain ⟨hlayout, hnext, hkeeps⟩ := h.unlink hb
  have hpre : FreeListAt A (splitBlock A s.mem size b.addr)
      (headAddr 0 ((b :: post).filter Block.free)) (pre.filter Block.free) := by
    have hlist := h.list
    rw [filter_append] at hlist
    exact (freeListAt_append.mp hlist).1
  have hfilt : (pre ++ b.mark false :: post).filter Block.free =
      pre.filter Block.free ++ post.filter Block.free := by simp
  have htake : takeBlock A s size (lastAddr 0 (pre.filter Block.free)) b.addr = { s with
      mem := relink A (splitBlock A s.mem size b.addr) (pre.filter Block.free)
        (nextOf A (splitBlock A s.mem size b.addr) b.addr)
      freeList := headAddr 0 ((pre ++ b.mark false :: post).filter Block.free) } := by
    have hlast := hpre.lastAddr_eq_zero
    unfold relink takeBlock
    rw [hfilt]
    by_cases hnil : pre.filter Block.free = []
    · rw [if_pos (hlast.mpr hnil), if_pos (hlast.mpr hnil), hnext, hnil, nil_append]
    · rw [if_neg (mt hlast.mp hnil), if_neg (mt hlast.mp hnil), hhead]
      obtain ⟨c, cs, hcons⟩ := exists_cons_of_ne_nil hnil
      simp only [hcons, cons_append, headAddr]
  have hupdate := updateRemainingHeapSize_eq (s := { s with
      mem := relink A (splitBlock A s.mem size b.addr) (pre.filter Block.free)
        (nextOf A (splitBlock A s.mem size b.addr) b.addr)
      freeList := headAddr 0 ((pre ++ b.mark false :: post).filter Block.free) })
    hlayout.list rfl
  rw [htake]
  exact ⟨_, hupdate, ⟨hlayout, rfl, hcoalesced, rfl, hceil⟩, hkeeps⟩

theorem HeapAt.take (h : HeapAt A s start (pre ++ b :: post)) (hb : b.free = true)
    (hfit : size ≤ b.size) :
    ∃ s' bs', updateRemainingHeapSize A
        (takeBlock A s size (lastAddr 0 (pre.filter Block.free)) b.addr) = some s' ∧
      HeapAt A s' start bs' ∧ Keeps A s.mem s'.mem (pre ++ b :: post) ∧
      Allocated A size (pre ++ b :: post) bs' (b.addr + headerSize A) := by
  have hhead : s.freeList = headAddr 0 (pre.filter Block.free ++ b :: post.filter Block.free) := by
    simpa [hb] using h.head
  have hused : usedBlocks (pre ++ b :: post) = usedBlocks pre ++ usedBlocks post := by
    simp [usedBlocks, hb]
  have hsize := (h.header b (by simp)).2
  have hbound := stop_lt_of_tiles h.tiles h.ceiling (b := b) (by simp)
  have hstart := (h.tiles.bounds (b := b) (by simp)).1
  have hpos := h.pos
  have hroom : A.wrap (size + headerSize A + 1) = size + headerSize A + 1 := by
    apply wrap_of_lt
    simp only [Block.stop] at hbound
    omega
  by_cases hsplit : size + headerSize A + 1 ≤ b.size
  · obtain ⟨hlayout, hkeeps⟩ := h.toLayout.split hb hsplit
    obtain ⟨s', heq, hheap, hkeeps'⟩ := takeBlock_heapAt (b := b.front size) hlayout hb hhead
      h.coalesced.use_front h.ceiling
    refine ⟨s', _, heq, hheap, hkeeps.trans (hkeeps'.mono ?_), ?_⟩
    · intro c hc hcf
      exact mem_of_free_replaced (l := [b]) (k := [_, _]) hc hcf (by simp [hb])
    · refine Allocated.block (b := (b.front size).mark false) le_rfl hused ?_
      simp [usedBlocks, Block.back, hb]
  · have hsame : splitBlock A s.mem size b.addr = s.mem := by
      unfold splitBlock
      rw [hroom, hsize, if_neg hsplit]
    obtain ⟨s', heq, hheap, hkeeps⟩ := takeBlock_heapAt (hsame ▸ h.toLayout) hb hhead
      h.coalesced.use h.ceiling
    rw [hsame] at hkeeps
    refine ⟨s', _, heq, hheap, hkeeps.mono ?_, ?_⟩
    · intro c hc hcf
      exact mem_of_free_replaced (l := [b]) (k := [_]) hc hcf (by simp [hb])
    · refine Allocated.block (b := b.mark false) hfit hused ?_
      simp [usedBlocks]

end

end Taavi.Heap
