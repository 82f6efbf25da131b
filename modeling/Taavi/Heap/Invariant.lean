import Taavi.Heap.Operations

/-!
# The representation invariant of the heap

The heap is a tiling by blocks with headers in memory, and the free list chains the free ones. The
parts of `__kmalloc` and `__kfree` keep this and the bytes of the blocks in use.
-/

namespace Taavi.Heap

open Lib List

/-- The blocks tile an interval, have their headers in memory, and the free ones
are chained. -/
structure Layout (A : Arch) (m : Memory) (start stop : ℕ) (bs : List Block) : Prop where
  tiles : Tiles (headerSize A) start stop bs
  header : ∀ b ∈ bs, HeaderAt A m b
  list : FreeListAt A m 0 (bs.filter Block.free)
  pos : 0 < start
  nonempty : start < stop

structure HeapAt (A : Arch) (s : State) (start : ℕ) (bs : List Block) : Prop
    extends Layout A s.mem start s.currentHeapCeiling bs where
  head : s.freeList = headAddr 0 (bs.filter Block.free)
  coalesced : Coalesced bs
  remaining : s.remainingHeapSize = freeBytes A (bs.filter Block.free)
  ceiling : s.currentHeapCeiling ≤ A.heapCeil

/-- The bytes of every block in use, header and payload, are the same. -/
def Keeps (A : Arch) (m m' : Memory) (bs : List Block) : Prop :=
  ∀ c ∈ bs, c.free = false → m.AgreeOn m' c.addr (c.stop (headerSize A))

section

variable {A : Arch} {m m' m'' : Memory} {s : State} {b : Block} {bs pre post : List Block}
variable {start stop : ℕ}

theorem mem_of_free_replaced {c : Block} {l k : List Block} (hc : c ∈ pre ++ (l ++ post))
    (hused : c.free = false) (hl : ∀ b ∈ l, b.free = true) : c ∈ pre ++ (k ++ post) := by
  simp only [mem_append] at hc ⊢
  rcases hc with hc | hc | hc
  · exact .inl hc
  · simp [hl c hc] at hused
  · exact .inr (.inr hc)

theorem Keeps.trans (h : Keeps A m m' bs) (h' : Keeps A m' m'' bs) : Keeps A m m'' bs :=
  fun c hc hused => (h c hc hused).trans (h' c hc hused)

theorem Keeps.mono {cs : List Block} (h : Keeps A m m' bs)
    (hsub : ∀ c ∈ cs, c.free = false → c ∈ bs) : Keeps A m m' cs :=
  fun c hc hused => h c (hsub c hc hused) hused

theorem keeps_of_frame (h : Tiles (headerSize A) start stop bs)
    (hframe : ∀ x, Outside A (bs.filter Block.free) x → m' x = m x) : Keeps A m m' bs := by
  intro c hc hused
  refine agreeOn_of_outside hframe fun f hf => ?_
  obtain ⟨hf, hfree⟩ := mem_filter.mp hf
  refine h.spaced.disjoint hc hf ?_
  rintro rfl
  simp [hused] at hfree

theorem HeaderAt.of_keeps (h : HeaderAt A m b) (hkeeps : Keeps A m m' bs) (hb : b ∈ bs)
    (hused : b.free = false) : HeaderAt A m' b := by
  refine h.congr fun x hlo hhi => hkeeps b hb hused x hlo ?_
  simp only [Block.stop]
  omega

theorem stop_lt_of_tiles (h : Tiles (headerSize A) start stop bs) (hstop : stop ≤ A.heapCeil)
    (hb : b ∈ bs) : b.stop (headerSize A) < A.addressSpace := by
  have hceil : A.heapCeil < A.addressSpace := by cases A <;> decide
  have hbound := (h.bounds hb).2
  omega

theorem HeapAt.of_joinFree (htiles : Tiles (headerSize A) start stop bs)
    (hheader : ∀ c ∈ bs, c.free = false → HeaderAt A m c)
    (hlist : FreeListAt A m' 0 (joinFree (headerSize A) (bs.filter Block.free)))
    (hframe : ∀ x, Outside A (bs.filter Block.free) x → m' x = m x) (hpos : 0 < start)
    (hnonempty : start < stop) (hceil : stop ≤ A.heapCeil) :
    HeapAt A
      { mem := m'
        freeList := headAddr 0 (joinFree (headerSize A) (bs.filter Block.free))
        remainingHeapSize := freeBytes A (joinFree (headerSize A) (bs.filter Block.free))
        currentHeapCeiling := stop } start (coalesce (headerSize A) bs) := by
  have hfree := filter_free_coalesce (headerSize_pos A) htiles
  have hused := filter_used_coalesce (headerSize A) bs
  refine
    { tiles := htiles.coalesce, header := ?_, list := by rwa [hfree], pos := hpos
      nonempty := hnonempty, head := by rw [hfree], coalesced := coalesced_coalesce _ _
      remaining := by rw [hfree], ceiling := hceil }
  intro c hc
  cases hcf : c.free with
  | true => exact hlist.header c (hfree ▸ mem_filter.mpr ⟨hc, hcf⟩)
  | false =>
    have hmem : c ∈ bs.filter fun b => !b.free := hused ▸ mem_filter.mpr ⟨hc, by simp [hcf]⟩
    have hcbs := mem_of_mem_filter hmem
    exact (hheader c hcbs hcf).of_keeps (keeps_of_frame htiles hframe) hcbs hcf

theorem HeapAt.kfree (h : HeapAt A s start (pre ++ b :: post)) (hb : b.free = false) :
    ∃ s', kfree A s (b.addr + headerSize A) = some (s', true) ∧
      HeapAt A s' start (coalesce (headerSize A) (pre ++ b.mark true :: post)) ∧
      Keeps A s.mem s'.mem (pre ++ b.mark true :: post) := by
  have htiles : Tiles (headerSize A) start s.currentHeapCeiling (pre ++ b.mark true :: post) :=
    h.tiles.mark true
  obtain ⟨hpre, hafter⟩ := h.tiles.sides
  have hstart := (h.tiles.bounds (b := b) (by simp)).1
  have hpos := h.pos
  have hbound := stop_lt_of_tiles h.tiles h.ceiling (b := b) (by simp)
  have hold : (pre ++ b :: post).filter Block.free =
      pre.filter Block.free ++ post.filter Block.free := by simp [hb]
  have hnew : (pre ++ b.mark true :: post).filter Block.free =
      pre.filter Block.free ++ b.mark true :: post.filter Block.free := by
    simp [filter_cons]
  obtain ⟨m', heq, hlist, hframe⟩ := kfreeBlock_eq (b := b.mark true) (hold ▸ h.list)
    (hold ▸ h.head) (h.header b (by simp)) (fun c hc => hpre c (mem_of_mem_filter hc))
    (fun c hc => hafter c (mem_of_mem_filter hc)) (by simp; omega) hbound
  rw [← hnew] at heq hlist hframe
  refine ⟨_, ?_, HeapAt.of_joinFree htiles ?_ hlist hframe h.pos h.nonempty h.ceiling,
    keeps_of_frame htiles hframe⟩
  · unfold Heap.kfree
    rw [if_neg (by omega)]
    exact heq
  · intro c hc hused
    refine h.header c ?_
    exact mem_of_free_replaced (l := [b.mark true]) (k := [b]) hc hused (by simp)

end

end Taavi.Heap
