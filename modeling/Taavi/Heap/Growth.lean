import Taavi.Heap.Allocation

/-!
# Searching and growing

`__kmalloc` takes the first block that is large enough, and grows the heap while there is none. It
returns for every outcome of the mappings and keeps the invariant, which `kmalloc_init` establishes.
-/

namespace Taavi.Heap

open Lib List Option

section

variable {A : Arch} {s : State} {bs : List Block} {start size : ℕ}

theorem heapCeil_add_lt (A : Arch) : A.heapCeil + additionSize < A.addressSpace := by
  cases A <;> decide

def newBlock (A : Arch) (ceiling : ℕ) : Block := ⟨ceiling, additionSize - headerSize A, true⟩

theorem HeapAt.grow (h : HeapAt A s start bs) (frames : Memory)
    (hroom : s.currentHeapCeiling + additionSize ≤ A.heapCeil) :
    ∃ s', grow A s frames = some s' ∧
      HeapAt A s' start (coalesce (headerSize A) (bs ++ [newBlock A s.currentHeapCeiling])) ∧
      s'.currentHeapCeiling = s.currentHeapCeiling + additionSize ∧ Keeps A s.mem s'.mem bs := by
  have hspace := heapCeil_add_lt A
  have hhdr : headerSize A ≤ additionSize := by cases A <;> decide
  have hstart := h.tiles.le
  have hpos := h.pos
  generalize hnew : newBlock A s.currentHeapCeiling = b
  have haddr : b.addr = s.currentHeapCeiling := by rw [← hnew]; rfl
  have hsize : b.size = additionSize - headerSize A := by rw [← hnew]; rfl
  have hfree : b.free = true := by rw [← hnew]; rfl
  have hstop : b.stop (headerSize A) = s.currentHeapCeiling + additionSize := by
    simp only [Block.stop]
    omega
  have htiles : Tiles (headerSize A) start (s.currentHeapCeiling + additionSize) (bs ++ [b]) :=
    tiles_append.mpr ⟨_, h.tiles, haddr, hstop⟩
  have hfilt : (bs ++ [b]).filter Block.free = bs.filter Block.free ++ [b] := by simp [hfree]
  generalize hm : (fun x => if s.currentHeapCeiling ≤ x ∧ x < s.currentHeapCeiling + additionSize
    then frames x else s.mem x : Memory) = m₀
  have hm₀ : ∀ x, x < b.addr ∨ b.stop (headerSize A) ≤ x → m₀ x = s.mem x := by
    intro x hx
    rw [← hm]
    exact if_neg (by omega)
  obtain ⟨hheader, -, hframe⟩ := header_of_assignments (A := A) (m := m₀) (b := b) (v := 0)
    (by omega) (by omega)
  generalize hm₁ : setNext A (setMagic A (setSize A m₀ b.addr b.size) b.addr heapMagic) b.addr 0 =
    m₁ at *
  have hm₁' : ∀ x, x < b.addr ∨ b.stop (headerSize A) ≤ x → m₁ x = s.mem x := by
    intro x hx
    rw [hframe x (by omega), hm₀ x hx]
  have hkeep : ∀ c ∈ bs, s.mem.AgreeOn m₁ c.addr (c.stop (headerSize A)) := by
    intro c hc x hlo hhi
    have hbound := (h.tiles.bounds hc).2
    exact hm₁' x (by omega)
  have hold : FreeListAt A m₁ 0 (bs.filter Block.free ++ []) := by
    rw [append_nil]
    refine h.list.congr fun c hc x hlo hhi => hkeep c (mem_of_mem_filter hc) x hlo ?_
    simp only [Block.stop]
    omega
  obtain ⟨m', heq, hlist, hframe'⟩ := kfreeBlock_eq (s := { s with mem := m₁ }) hold
    (by simpa using h.head) hheader
    (fun c hc => by
      have hbound := (h.tiles.bounds (mem_of_mem_filter hc)).2
      omega) (by simp) (by omega) (by omega)
  rw [← hfilt] at heq hlist hframe'
  have hupdate := updateRemainingHeapSize_eq (s := { s with
      mem := m'
      freeList := headAddr 0 (joinFree (headerSize A) ((bs ++ [b]).filter Block.free))
      remainingHeapSize := freeBytes A (joinFree (headerSize A) ((bs ++ [b]).filter Block.free))
      currentHeapCeiling := s.currentHeapCeiling + additionSize }) hlist rfl
  have hheap : HeapAt A _ start (coalesce (headerSize A) (bs ++ [b])) :=
    HeapAt.of_joinFree htiles (m := m₁) (fun c hc hused => ?_) hlist hframe' h.pos
      (h.nonempty.trans_le (Nat.le_add_right _ _)) hroom
  · refine ⟨_, ?_, hheap, rfl, ?_⟩
    · have hwrap : A.wrap (s.currentHeapCeiling + headerSize A) =
          s.currentHeapCeiling + headerSize A := wrap_of_lt (by omega)
      have hwrap' : A.wrap (s.currentHeapCeiling + additionSize) =
          s.currentHeapCeiling + additionSize := wrap_of_lt (by omega)
      rw [haddr] at heq
      rw [haddr, hsize] at hm₁
      simp only [Heap.grow, hm, hm₁, hwrap, heq, bind_eq_bind, bind_some, hwrap']
      exact hupdate
    · intro c hc hused
      exact (hkeep c hc).trans (keeps_of_frame htiles hframe' c (by simp [hc]) hused)
  · rcases mem_append.mp hc with hc | hc
    · refine (h.header c hc).congr fun x hlo hhi => hkeep c hc x hlo ?_
      simp only [Block.stop]
      omega
    · obtain rfl : c = b := by simpa using hc
      exact hheader

theorem exists_first_fit (hfit : ∃ b ∈ bs.filter Block.free, size ≤ b.size) :
    ∃ b pre post, bs = pre ++ b :: post ∧ b.free = true ∧ size ≤ b.size ∧
      ∀ c ∈ pre.filter Block.free, c.size < size := by
  have hsome : ((bs.filter Block.free).find? fun b => decide (size ≤ b.size)).isSome := by
    simpa [List.find?_isSome, and_assoc] using hfit
  obtain ⟨b, hfind⟩ := isSome_iff_exists.mp hsome
  obtain ⟨hb, fpre, fpost, hfilt, hpre⟩ := List.find?_eq_some_iff_append.mp hfind
  obtain ⟨l₁, l₂, rfl, hfpre, hrest⟩ := filter_eq_append_iff.mp hfilt
  obtain ⟨l₃, l₄, rfl, hnone, hfree, -⟩ := filter_eq_cons_iff.mp hrest
  refine ⟨b, l₁ ++ l₃, l₄, by simp, hfree, by simpa using hb, fun c hc => ?_⟩
  rw [filter_append, hfpre, filter_eq_nil_iff.mpr hnone, append_nil] at hc
  simpa using hpre c hc

theorem Allocated.of_used {bs₁ bs' : List Block} {p : ℕ} (h : Allocated A size bs₁ bs' p)
    (hused : usedBlocks bs₁ = usedBlocks bs) : Allocated A size bs bs' p := by
  cases h with
  | null hsame => exact .null (hsame.trans hused)
  | block hsize hpre hafter => exact .block hsize (hused ▸ hpre) hafter

theorem ceiling_updateRemainingHeapSize {s' : State} (h : updateRemainingHeapSize A s = some s') :
    s'.currentHeapCeiling = s.currentHeapCeiling := by
  obtain ⟨total, -, heq⟩ := bind_eq_some_iff.mp h
  rw [← Option.some.inj heq]

/-- The rounds of a search. The heap grows by an addition only when no free block is large enough, and
the pointer is null only when none is and the heap is at its end or a mapping fails. -/
inductive Searched (A : Arch) (start size : ℕ) (vmm : ℕ → Option Memory) :
    ℕ → State → List Block → State → ℕ → Prop
  | found {i p : ℕ} {s s' : State} {bs : List Block} :
      (∃ b ∈ bs.filter Block.free, size ≤ b.size) →
      s'.currentHeapCeiling = s.currentHeapCeiling → p ≠ 0 → Searched A start size vmm i s bs s' p
  | failed {i : ℕ} {s : State} {bs : List Block} : (∀ b ∈ bs.filter Block.free, b.size < size) →
      vmm i = none ∨ A.heapCeil < additionSize + s.currentHeapCeiling →
      Searched A start size vmm i s bs s 0
  | grown {i p : ℕ} {s s₁ s' : State} {bs bs₁ : List Block} {frames : Memory} :
      (∀ b ∈ bs.filter Block.free, b.size < size) → vmm i = some frames →
      grow A s frames = some s₁ → HeapAt A s₁ start bs₁ →
      s₁.currentHeapCeiling = s.currentHeapCeiling + additionSize →
      Searched A start size vmm (i + 1) s₁ bs₁ s' p → Searched A start size vmm i s bs s' p

theorem HeapAt.kmallocLoop {vmm : ℕ → Option Memory} {fuel i : ℕ} (h : HeapAt A s start bs)
    (hfuel : A.heapCeil - s.currentHeapCeiling < fuel) :
    ∃ s' bs' p, kmallocLoop A size vmm fuel i s = some (s', p) ∧ HeapAt A s' start bs' ∧
      Keeps A s.mem s'.mem bs ∧ Allocated A size bs bs' p ∧
      Searched A start size vmm i s bs s' p := by
  induction fuel generalizing i s bs with
  | zero => omega
  | succ fuel ih =>
    by_cases hfit : ∃ b ∈ bs.filter Block.free, size ≤ b.size
    · obtain ⟨b, pre, post, rfl, hfree, hsize, hpre⟩ := exists_first_fit hfit
      have hfilt := filter_free_of_free hfree pre post
      have hlist := hfilt ▸ h.list
      have hlen := hlist.length_lt
      have hloop : loop (fitBody A s.mem size) A.addressSpace (0, s.freeList) =
          some (some (lastAddr 0 (pre.filter Block.free), b.addr)) := by
        rw [h.head, hfilt]
        exact (fit_exits_some 0 hlist hpre hsize).loop_eq (by simp at hlen; omega)
      obtain ⟨s', bs', htake, hheap, hkeeps, halloc⟩ := h.take hfree hsize
      have hbound := stop_lt_of_tiles h.tiles h.ceiling (b := b) (by simp)
      have hwrap : A.wrap (b.addr + headerSize A) = b.addr + headerSize A := by
        apply wrap_of_lt
        simp only [Block.stop] at hbound
        omega
      have hhdr := headerSize_pos A
      refine ⟨s', bs', _, by simp [Heap.kmallocLoop, hloop, htake, hwrap], hheap, hkeeps, halloc,
        .found hfit ?_ (by omega)⟩
      rw [ceiling_updateRemainingHeapSize htake, takeBlock]
      split_ifs <;> rfl
    · have hsmall : ∀ c ∈ bs.filter Block.free, c.size < size := by
        intro c hc
        by_contra hc'
        exact hfit ⟨c, hc, by omega⟩
      have hloop : loop (fitBody A s.mem size) A.addressSpace (0, s.freeList) = some none := by
        rw [h.head]
        exact (fit_exits_none 0 h.list hsmall).loop_eq h.list.length_lt
      have hspace := heapCeil_add_lt A
      have hceil := h.ceiling
      have hwrap : A.wrap (additionSize + s.currentHeapCeiling) =
          additionSize + s.currentHeapCeiling := wrap_of_lt (by omega)
      have hnull : Keeps A s.mem s.mem bs := fun c hc hused x hlo hhi => rfl
      by_cases hroom : A.heapCeil < additionSize + s.currentHeapCeiling
      · exact ⟨s, bs, 0, by simp [Heap.kmallocLoop, hloop, hwrap, hroom], h, hnull, .null rfl,
          .failed hsmall (.inr hroom)⟩
      · cases hvmm : vmm i with
        | none =>
          exact ⟨s, bs, 0, by simp [Heap.kmallocLoop, hloop, hwrap, hroom, hvmm], h, hnull,
            .null rfl, .failed hsmall (.inl hvmm)⟩
        | some frames =>
          obtain ⟨s₁, hgrow, hheap, hgrown, hkeeps⟩ := h.grow frames (by omega)
          have hadd : 0 < additionSize := by decide
          obtain ⟨s', bs', p, hrest, hheap', hkeeps', halloc, hsearch⟩ :=
            ih (i := i + 1) hheap (by omega)
          have hused : usedBlocks (coalesce (headerSize A)
              (bs ++ [newBlock A s.currentHeapCeiling])) = usedBlocks bs := by
            unfold usedBlocks
            rw [filter_used_coalesce]
            simp [newBlock]
          refine ⟨s', bs', p, ?_, hheap', hkeeps.trans (hkeeps'.mono fun c hc hcf => ?_),
            halloc.of_used hused, .grown hsmall hvmm hgrow hheap hgrown hsearch⟩
          · simpa [Heap.kmallocLoop, hloop, hwrap, hroom, hvmm, hgrow] using hrest
          · have hmem : c ∈ usedBlocks bs := mem_usedBlocks.mpr ⟨hc, hcf⟩
            exact (mem_usedBlocks.mp (hused.symm ▸ hmem)).1

theorem kmallocInit_heapAt (s : State) (frames : Memory) (hpos : 0 < start)
    (hsize : headerSize A ≤ size) (hceil : start + size ≤ A.heapCeil) :
    ∃ s', kmallocInit A s start size (some frames) = some (s', true) ∧
      HeapAt A s' start [⟨start, size - headerSize A, true⟩] := by
  have hhdr := headerSize_pos A
  have hspace := heapCeil_add_lt A
  generalize hb : (⟨start, size - headerSize A, true⟩ : Block) = b
  have haddr : b.addr = start := by rw [← hb]
  have hbsize : b.size = size - headerSize A := by rw [← hb]
  have hfree : b.free = true := by rw [← hb]
  have hstop : b.stop (headerSize A) = start + size := by
    simp only [Block.stop]
    omega
  generalize hm : (fun x => if start ≤ x ∧ x < start + size then frames x else s.mem x : Memory) =
    m₀
  obtain ⟨hheader, hnext, -⟩ := header_of_assignments (A := A) (m := m₀) (b := b) (v := 0)
    (by omega) (by omega)
  have hwrap : A.wrap (size + A.addressSpace - headerSize A) = size - headerSize A := by
    unfold Arch.wrap
    rw [show size + A.addressSpace - headerSize A = size - headerSize A + A.addressSpace by omega,
      Nat.add_mod_right, Nat.mod_eq_of_lt (by omega)]
  have hwrap' : A.wrap (start + size) = start + size := wrap_of_lt (by omega)
  rw [haddr, hbsize] at hheader hnext
  generalize hm₁ : setNext A (setMagic A (setSize A m₀ start (size - headerSize A)) start
    heapMagic) start 0 = m₁ at *
  have hlist : FreeListAt A m₁ 0 [b] :=
    FreeListAt.cons ⟨by simp, trivial, List.Pairwise.nil, by simp, by simp⟩ hheader
      (by rw [haddr, hnext]; rfl) (by simp) (by omega) (by omega)
  have hfilt : [b].filter Block.free = [b] := by simp [hfree]
  have hupdate := updateRemainingHeapSize_eq (s := { s with
    mem := m₁, freeList := start, currentHeapCeiling := start + size }) hlist haddr.symm
  have hinit : kmallocInit A s start size (some frames) = some ({ s with
      mem := m₁
      freeList := start
      remainingHeapSize := freeBytes A [b]
      currentHeapCeiling := start + size }, true) := by
    have hnull : ¬(start = 0 ∨ size = 0) := by omega
    simp only [kmallocInit, if_neg hnull, hm, hwrap, hm₁, hwrap', hupdate, bind_eq_bind,
      bind_some]
    rfl
  refine ⟨_, hinit, ⟨⟨haddr, hstop⟩, by simpa using hheader, hfilt.symm ▸ hlist, hpos,
    Nat.lt_add_of_pos_right (by omega)⟩, ?_, ?_, ?_, hceil⟩
  · rw [hfilt]
    exact haddr.symm
  · simp [Coalesced]
  · rw [hfilt]

end

end Taavi.Heap
