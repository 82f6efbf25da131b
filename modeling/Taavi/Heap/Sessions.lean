import Taavi.Heap.Growth
import Taavi.Lib.Runs

/-!
# Sessions with the kernel heap

Runs of `kmalloc`, `kfree` and stores, by callers that free and write only what they hold. Every
call returns and keeps the invariant.
-/

namespace Taavi.Heap

open Lib List

/-- The state of the heap and the pointers that its callers hold. -/
structure Session where
  heap : State
  live : List ℕ

/-- What callers do with the heap. -/
inductive Call where
  /-- `kmalloc(size)`, with the outcomes of the page mappings it may ask for. -/
  | kmalloc (size : ℕ) (vmm : ℕ → Option Memory)
  | kfree (ptr : ℕ)
  | store (ptr offset : ℕ) (byte : UInt8)

/-- Execute one call. The result is missing when the allocator does not return. -/
def Session.step (A : Arch) (t : Session) : Call → Option Session
  | .kmalloc size vmm => do
    let (s, p) ← Heap.kmalloc A t.heap size vmm
    return { heap := s, live := if p = 0 then t.live else p :: t.live }
  | .kfree ptr => do
    let (s, ok) ← Heap.kfree A t.heap ptr
    return { heap := s, live := if ok then t.live.erase ptr else t.live }
  | .store ptr offset byte =>
    some { t with heap.mem := Function.update t.heap.mem (ptr + offset) byte }

/-- The first address after the payload at a pointer. -/
def payloadStop (A : Arch) (m : Memory) (ptr : ℕ) : ℕ := ptr + sizeOf A m (ptr - headerSize A)

def Session.Allows (A : Arch) (t : Session) : Call → Prop
  | .kmalloc size _ => 0 < size ∧ size < A.addressSpace
  | .kfree ptr => ptr ∈ t.live
  | .store ptr offset _ => ptr ∈ t.live ∧ ptr + offset < payloadStop A t.heap.mem ptr

def Session.Step (A : Arch) (t : Session) (c : Call) (u : Session) : Prop :=
  t.Allows A c ∧ t.step A c = some u

/-- The heap consists of the given blocks and the callers hold the payloads of
those in use. -/
structure SessionAt (A : Arch) (t : Session) (start : ℕ) (bs : List Block) : Prop where
  heap : HeapAt A t.heap start bs
  live : t.live.Perm ((usedBlocks bs).map fun b => b.addr + headerSize A)

/-- The payload at a pointer, its length included, is the same in two memories. -/
def SamePayload (A : Arch) (m m' : Memory) (ptr : ℕ) : Prop :=
  payloadStop A m' ptr = payloadStop A m ptr ∧ m.AgreeOn m' ptr (payloadStop A m ptr)

section

variable {A : Arch} {t : Session} {bs : List Block} {start : ℕ}

theorem SessionAt.block_of_live (h : SessionAt A t start bs) {ptr : ℕ} (hptr : ptr ∈ t.live) :
    ∃ b ∈ bs, b.free = false ∧ ptr = b.addr + headerSize A ∧
      payloadStop A t.heap.mem ptr = b.stop (headerSize A) := by
  obtain ⟨b, hb, rfl⟩ := mem_map.mp (h.live.mem_iff.mp hptr)
  obtain ⟨hb, hused⟩ := mem_usedBlocks.mp hb
  refine ⟨b, hb, hused, rfl, ?_⟩
  unfold payloadStop
  rw [Nat.add_sub_cancel, (h.heap.header b hb).2, Block.stop]

theorem samePayload_of_keeps {m m' : Memory} {b : Block} (hkeeps : Keeps A m m' bs) (hb : b ∈ bs)
    (hused : b.free = false) (hheader : HeaderAt A m b) :
    SamePayload A m m' (b.addr + headerSize A) := by
  have hstop : payloadStop A m (b.addr + headerSize A) = b.stop (headerSize A) := by
    unfold payloadStop
    rw [Nat.add_sub_cancel, hheader.2, Block.stop]
  have hstop' : payloadStop A m' (b.addr + headerSize A) = b.stop (headerSize A) := by
    unfold payloadStop
    rw [Nat.add_sub_cancel, (hheader.of_keeps hkeeps hb hused).2, Block.stop]
  refine ⟨hstop'.trans hstop.symm, fun x hlo hhi => hkeeps b hb hused x (by omega) ?_⟩
  omega

section

variable (h : SessionAt A t start bs)

include h

theorem SessionAt.kmalloc {size : ℕ} (hsize : 0 < size)
    (vmm : ℕ → Option Memory) :
    ∃ s' p bs', Heap.kmalloc A t.heap size vmm = some (s', p) ∧
      SessionAt A ⟨s', if p = 0 then t.live else p :: t.live⟩ start bs' ∧
      Keeps A t.heap.mem s'.mem bs ∧ Allocated A size bs bs' p := by
  have hfuel : A.heapCeil - t.heap.currentHeapCeiling < A.addressSpace := by
    have hceil := heapCeil_add_lt A
    omega
  obtain ⟨s', bs', p, heq, hheap, hkeeps, halloc, -⟩ := h.heap.kmallocLoop hfuel
  refine ⟨s', p, bs', ?_, ⟨hheap, ?_⟩, hkeeps, halloc⟩
  · unfold Heap.kmalloc
    rw [if_neg (by omega)]
    exact heq
  · cases halloc with
    | null hsame =>
      rw [hsame]
      simpa using h.live
    | @block b pre post _ hpre hafter =>
      have hhdr := headerSize_pos A
      rw [if_neg (by omega), hafter]
      have hlive := h.live
      rw [hpre] at hlive
      simp only [map_append, map_cons] at hlive ⊢
      exact (hlive.cons _).trans perm_middle.symm

theorem SessionAt.kfree {ptr : ℕ} (hptr : ptr ∈ t.live) :
    ∃ s' bs', Heap.kfree A t.heap ptr = some (s', true) ∧
      SessionAt A ⟨s', t.live.erase ptr⟩ start bs' ∧
      ∀ q ∈ t.live, q ≠ ptr → SamePayload A t.heap.mem s'.mem q := by
  obtain ⟨b, hb, hused, rfl, -⟩ := h.block_of_live hptr
  obtain ⟨pre, post, rfl⟩ := append_of_mem hb
  obtain ⟨s', heq, hheap, hkeeps⟩ := h.heap.kfree hused
  refine ⟨s', _, heq, ⟨hheap, ?_⟩, fun q hq hne => ?_⟩
  · have hafter : usedBlocks (coalesce (headerSize A) (pre ++ b.mark true :: post)) =
        usedBlocks pre ++ usedBlocks post := by
      unfold usedBlocks
      rw [filter_used_coalesce]
      simp
    have hpre : usedBlocks (pre ++ b :: post) = usedBlocks pre ++ b :: usedBlocks post := by
      simp [usedBlocks, hused]
    have hlive := h.live
    rw [hpre, map_append, map_cons] at hlive
    rw [hafter, map_append]
    have herase := (hlive.trans perm_middle).erase (b.addr + headerSize A)
    rwa [erase_cons_head] at herase
  · obtain ⟨c, hc, hcused, rfl, -⟩ := h.block_of_live hq
    refine samePayload_of_keeps hkeeps ?_ hcused (h.heap.header c hc)
    simp only [mem_append, mem_cons] at hc ⊢
    rcases hc with hc | rfl | hc
    · exact .inl hc
    · exact absurd rfl hne
    · exact .inr (.inr hc)

theorem SessionAt.store {ptr offset : ℕ} (byte : UInt8)
    (hptr : ptr ∈ t.live) (hoff : ptr + offset < payloadStop A t.heap.mem ptr) :
    SessionAt A { t with heap.mem := Function.update t.heap.mem (ptr + offset) byte } start bs := by
  obtain ⟨b, hb, -, rfl, hstop⟩ := h.block_of_live hptr
  have hother : ∀ c ∈ bs, t.heap.mem.AgreeOn
      (Function.update t.heap.mem (b.addr + headerSize A + offset) byte) c.addr
      (c.addr + headerSize A) := by
    intro c hc x hlo hhi
    refine Function.update_of_ne ?_ _ _
    by_cases hcb : c = b
    · subst hcb
      omega
    · have hdisj := h.heap.tiles.spaced.disjoint hc hb hcb
      have hcstop : c.stop (headerSize A) = c.addr + headerSize A + c.size := rfl
      omega
  exact ⟨⟨⟨h.heap.tiles, fun c hc => (h.heap.header c hc).congr (hother c hc),
    h.heap.list.congr fun c hc => hother c (mem_of_mem_filter hc), h.heap.pos,
    h.heap.nonempty⟩, h.heap.head, h.heap.coalesced, h.heap.remaining, h.heap.ceiling⟩, h.live⟩

theorem SessionAt.step {c : Call} {u : Session}
    (hstep : t.Step A c u) : ∃ bs', SessionAt A u start bs' := by
  obtain ⟨hallows, heq⟩ := hstep
  cases c with
  | kmalloc size vmm =>
    obtain ⟨s', p, bs', hcall, hsession, -, -⟩ := h.kmalloc hallows.1 vmm
    obtain rfl : _ = u := by simpa [Session.step, hcall] using heq
    exact ⟨bs', hsession⟩
  | kfree ptr =>
    obtain ⟨s', bs', hcall, hsession, -⟩ := h.kfree hallows
    obtain rfl : _ = u := by simpa [Session.step, hcall] using heq
    exact ⟨bs', hsession⟩
  | store ptr offset byte =>
    obtain rfl : _ = u := by simpa [Session.step] using heq
    exact ⟨bs, h.store byte hallows.1 hallows.2⟩

theorem SessionAt.disjoint_of_allocated {s' : State} {live : List ℕ}
    {bs' : List Block} {size p : ℕ} (h' : SessionAt A ⟨s', live⟩ start bs')
    (hkeeps : Keeps A t.heap.mem s'.mem bs) (halloc : Allocated A size bs bs' p) (hp : p ≠ 0) :
    p + size ≤ payloadStop A s'.mem p ∧
      ∀ q ∈ t.live, payloadStop A s'.mem p ≤ q - headerSize A ∨
        payloadStop A s'.mem q ≤ p - headerSize A := by
  cases halloc with
  | null hsame => exact absurd rfl hp
  | @block b pre post hsize hpre hafter =>
    have hb : b ∈ bs' := (mem_usedBlocks.mp (hafter ▸ (by simp : b ∈ pre ++ b :: post))).1
    have hstop : payloadStop A s'.mem (b.addr + headerSize A) = b.stop (headerSize A) := by
      unfold payloadStop
      rw [Nat.add_sub_cancel, (h'.heap.header b hb).2, Block.stop]
    have hspaced : Spaced (headerSize A) (pre ++ b :: post) :=
      hafter ▸ h'.heap.tiles.spaced.filter _
    obtain ⟨-, hrest, hcross⟩ := pairwise_append.mp hspaced
    rw [hstop, Nat.add_sub_cancel]
    refine ⟨by simp only [Block.stop]; omega, fun q hq => ?_⟩
    obtain ⟨c, hc, hused, rfl, hcstop⟩ := h.block_of_live hq
    have hsame := (samePayload_of_keeps hkeeps hc hused (h.heap.header c hc)).1
    rw [hsame, hcstop, Nat.add_sub_cancel]
    have hmem : c ∈ pre ++ post := hpre ▸ mem_usedBlocks.mpr ⟨hc, hused⟩
    rcases mem_append.mp hmem with hmem | hmem
    · exact .inr (hcross c hmem b (by simp))
    · exact .inl ((pairwise_cons.mp hrest).1 c hmem)

theorem SessionAt.single_of_live_nil (hlive : t.live = []) :
    bs = [⟨start, t.heap.currentHeapCeiling - start - headerSize A, true⟩] := by
  have hfree : ∀ b ∈ bs, b.free = true := by
    intro b hb
    by_contra hused
    have hmem : b ∈ usedBlocks bs := mem_usedBlocks.mpr ⟨hb, by simpa using hused⟩
    have hempty : (usedBlocks bs).map (fun b => b.addr + headerSize A) = [] :=
      nil_perm.mp (hlive ▸ h.live)
    rw [map_eq_nil_iff.mp hempty] at hmem
    simp at hmem
  have htiles := h.heap.tiles
  have hnonempty := h.heap.nonempty
  match bs, hfree, htiles, h.heap.coalesced with
  | [], _, htiles, _ => exact absurd htiles hnonempty.ne
  | [b], hfree, htiles, _ =>
    obtain ⟨haddr, hstop⟩ := htiles
    have hb := hfree b (by simp)
    cases b with
    | mk addr size free =>
      simp only [Tiles, Block.stop] at haddr hstop hb
      subst haddr hb
      congr
      omega
  | b :: c :: rest, hfree, _, hcoalesced =>
    exact absurd ⟨hfree b (by simp), hfree c (by simp)⟩ (isChain_cons_cons.mp hcoalesced).1

end

end

/-- After `kmalloc_init` and any run of allowed calls, blocks with their headers tile the heap, the
free list is the chain of those that no caller holds, and no two neighbours are free. The next
`kmalloc` returns and gives out a large enough block that overlaps no held one, the next `kfree` of
a held pointer succeeds, and both leave the other held payloads as they are. -/
theorem heap_represented (A : Arch) (s₀ : State) (frames : Memory) {start size : ℕ}
    (hpos : 0 < start) (hsize : headerSize A ≤ size) (hceil : start + size ≤ A.heapCeil) :
    ∃ s, kmallocInit A s₀ start size (some frames) = some (s, true) ∧
      ∀ calls t, Run (Session.Step A) ⟨s, []⟩ calls t →
        (∃ bs, Tiles (headerSize A) start t.heap.currentHeapCeiling bs ∧
          (∀ b ∈ bs, magicOf A t.heap.mem b.addr = heapMagic ∧
            sizeOf A t.heap.mem b.addr = b.size) ∧
          t.live.Perm ((bs.filter fun b => !b.free).map fun b => b.addr + headerSize A) ∧
          t.heap.freeList = headAddr 0 (bs.filter Block.free) ∧
          Linked A t.heap.mem 0 (bs.filter Block.free) ∧
          (bs.filter Block.free).Pairwise (fun a b => a.addr < b.addr) ∧
          bs.IsChain (fun a b => ¬(a.free = true ∧ b.free = true)) ∧
          (t.live = [] → bs = [⟨start, t.heap.currentHeapCeiling - start - headerSize A, true⟩])) ∧
        (∀ size vmm, 0 < size → size < A.addressSpace →
          ∃ s' p, kmalloc A t.heap size vmm = some (s', p) ∧
            (∀ q ∈ t.live, SamePayload A t.heap.mem s'.mem q) ∧
            (p ≠ 0 → p + size ≤ payloadStop A s'.mem p ∧
              ∀ q ∈ t.live, payloadStop A s'.mem p ≤ q - headerSize A ∨
                payloadStop A s'.mem q ≤ p - headerSize A)) ∧
        ∀ p ∈ t.live, ∃ s', kfree A t.heap p = some (s', true) ∧
          ∀ q ∈ t.live, q ≠ p → SamePayload A t.heap.mem s'.mem q := by
  obtain ⟨s, hinit, hheap⟩ := kmallocInit_heapAt s₀ frames hpos hsize hceil
  refine ⟨s, hinit, fun calls t hrun => ?_⟩
  have hstep : ∀ t c u, (∃ bs, SessionAt A t start bs) → Session.Step A t c u →
      ∃ bs, SessionAt A u start bs := by
    rintro t c u ⟨bs, h⟩ hstep
    exact h.step hstep
  obtain ⟨bs, h⟩ := hrun.invariant hstep ⟨_, hheap, by simp [usedBlocks]⟩
  refine ⟨⟨bs, h.heap.tiles, h.heap.header, h.live, h.heap.head, h.heap.list.linked, ?_,
    h.heap.coalesced, h.single_of_live_nil⟩, ?_, ?_⟩
  · refine h.heap.list.spaced.imp fun {a b} hab => ?_
    have hhdr := headerSize_pos A
    simp only [Block.stop] at hab
    omega
  · intro size vmm hsize _
    obtain ⟨s', p, bs', hcall, h', hkeeps, halloc⟩ := h.kmalloc hsize vmm
    refine ⟨s', p, hcall, fun q hq => ?_, h.disjoint_of_allocated h' hkeeps halloc⟩
    obtain ⟨c, hc, hused, rfl, -⟩ := h.block_of_live hq
    exact samePayload_of_keeps hkeeps hc hused (h.heap.header c hc)
  · intro p hp
    obtain ⟨s', -, hcall, -, hsame⟩ := h.kfree hp
    exact ⟨s', hcall, hsame⟩

/-- The heap of the i386 kernel as `kmain` sets it up, and a first call on it. -/
theorem heap_represented_i386 :
    ∃ s t, kmallocInit .i386 ⟨fun _ => 0, 0, 0, 0⟩ Arch.i386.heapStart
        (additionHeapPageSize * pageSize) (some fun _ => 0) = some (s, true) ∧
      Run (Session.Step .i386) ⟨s, []⟩ [.kmalloc 16 fun _ => none] t ∧
      ∃ bs, Tiles (headerSize .i386) Arch.i386.heapStart t.heap.currentHeapCeiling bs := by
  obtain ⟨s, hinit, hruns⟩ := heap_represented .i386 ⟨fun _ => 0, 0, 0, 0⟩ (fun _ => 0)
    (show 0 < Arch.i386.heapStart by decide)
    (show headerSize .i386 ≤ additionHeapPageSize * pageSize by decide) (by decide)
  obtain ⟨-, hnext, -⟩ := hruns [] _ (Run.nil _)
  obtain ⟨s', p, hcall, -⟩ := hnext 16 (fun _ => none) (by decide) (by decide)
  have hrun : Run (Session.Step .i386) ⟨s, []⟩ [.kmalloc 16 fun _ => none]
      ⟨s', if p = 0 then [] else [p]⟩ :=
    Run.cons ⟨⟨by decide, by decide⟩, by simp [Session.step, hcall]⟩ (Run.nil _)
  obtain ⟨⟨bs, htiles, -⟩, -⟩ := hruns _ _ hrun
  exact ⟨s, _, hinit, hrun, bs, htiles⟩

theorem total_of_tiles {A : Arch} {start stop : ℕ} {bs : List Block}
    (h : Tiles (headerSize A) start stop bs) :
    start + freeBytes A (bs.filter Block.free) + freeBytes A (usedBlocks bs) = stop := by
  induction bs generalizing start with
  | nil => simpa [freeBytes, usedBlocks, Tiles] using h
  | cons b bs ih =>
    obtain ⟨rfl, hrest⟩ := h
    have hsum := ih hrest
    unfold freeBytes usedBlocks Block.stop at *
    cases hb : b.free <;> simp only [filter_cons, hb, Bool.not_false, Bool.not_true,
      Bool.false_eq_true, if_true, if_false, map_cons, sum_cons] <;> omega

end Taavi.Heap
