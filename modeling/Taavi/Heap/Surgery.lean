import Taavi.Heap.FreeList

/-!
# Changes to the free list

What the pointer assignments do to a free list: joining, inserting, taking out and splitting. Each
change is confined to its blocks.
-/

namespace Taavi.Heap

open Lib List

def Outside (A : Arch) (bs : List Block) (x : ℕ) : Prop :=
  ∀ b ∈ bs, x < b.addr ∨ b.stop (headerSize A) ≤ x

section

variable {A : Arch} {m m' : Memory} {a b : Block} {fs pre post : List Block}

variable {rest : List Block} {last v : ℕ}

theorem agreeOn_of_outside (hframe : ∀ x, Outside A fs x → m' x = m x) {lo hi : ℕ}
    (h : ∀ f ∈ fs, hi ≤ f.addr ∨ f.stop (headerSize A) ≤ lo) : m.AgreeOn m' lo hi := by
  intro x hlo hhi
  refine hframe x fun f hf => ?_
  have hf := h f hf
  omega

theorem HeaderAt.congr (h : HeaderAt A m b)
    (hagree : m.AgreeOn m' b.addr (b.addr + headerSize A)) : HeaderAt A m' b := by
  obtain ⟨hmagic, hsize, -⟩ := fields_congr hagree
  exact ⟨hmagic.trans h.1, hsize.trans h.2⟩

theorem FreeListAt.cons {last : ℕ} (h : FreeListAt A m last fs) (hheader : HeaderAt A m a)
    (hnext : nextOf A m a.addr = headAddr last fs)
    (hspaced : ∀ b ∈ fs, a.stop (headerSize A) ≤ b.addr) (hpos : 0 < a.addr)
    (hbound : a.stop (headerSize A) < A.addressSpace) : FreeListAt A m last (a :: fs) where
  header := forall_mem_cons.mpr ⟨hheader, h.header⟩
  linked := ⟨hnext, h.linked⟩
  spaced := pairwise_cons.mpr ⟨hspaced, h.spaced⟩
  pos := forall_mem_cons.mpr ⟨hpos, h.pos⟩
  bound := forall_mem_cons.mpr ⟨hbound, h.bound⟩

theorem FreeListAt.join (h : FreeListAt A m 0 (a :: b :: rest))
    (htouch : a.stop (headerSize A) = b.addr) :
    FreeListAt A
      (setNext A (setSize A m a.addr (a.size + (headerSize A + b.size))) a.addr
        (headAddr 0 rest)) 0 (a.join (headerSize A) b :: rest) := by
  have hjoin := Block.join_stop htouch
  have hbound := h.bound b (by simp)
  have hrest : ∀ c ∈ rest, (a.join (headerSize A) b).stop (headerSize A) ≤ c.addr := by
    intro c hc
    rw [hjoin]
    exact h.tail.head_stop_le hc
  have hhead : headAddr 0 rest < A.addressSpace := by
    rw [← h.linked.2.1]
    exact nextOf_lt
  refine FreeListAt.cons (h.tail.tail.congr ?_) ?_ ?_ hrest (h.pos a (by simp)) ?_
  · intro c hc x hlo hhi
    have hac := hrest c hc
    simp only [Block.stop, Block.join_addr, Block.join_size] at hac
    rw [setNext_apply (by omega), setSize_apply (by omega)]
  · have hsize : a.size + (headerSize A + b.size) < A.addressSpace := by
      simp only [Block.stop] at hbound htouch
      omega
    constructor
    · simpa using (h.header a (by simp)).1
    · simpa using wrap_of_lt hsize
  · simpa using wrap_of_lt hhead
  · rwa [hjoin]

theorem merge_exits (h : FreeListAt A m 0 (a :: rest)) :
    ∃ k m', k ≤ rest.length ∧ Exits (mergeBody A) (m, a.addr) k (m', true) ∧
      FreeListAt A m' 0 (joinFree (headerSize A) (a :: rest)) ∧
      ∀ x, Outside A (a :: rest) x → m' x = m x := by
  induction rest generalizing a m with
  | nil =>
    refine ⟨0, m, le_rfl, Exits.leave ?_, ?_, fun _ _ => rfl⟩
    · have hnext : nextOf A m a.addr = 0 := h.linked.1
      simp [mergeBody, hnext]
    · simpa [joinFree] using h
  | cons b rest ih =>
    have hpos := h.pos a (by simp)
    have hposb := h.pos b (by simp)
    have hnext : nextOf A m a.addr = b.addr := h.linked.1
    have hmagic := (h.header b (by simp)).1
    have hsize := (h.header a (by simp)).2
    have hsizeb := (h.header b (by simp)).2
    have hbound := h.bound a (by simp)
    have hboundb := h.bound b (by simp)
    have hstop : A.wrap (a.addr + headerSize A + a.size) = a.stop (headerSize A) :=
      wrap_of_lt hbound
    have hab : a.stop (headerSize A) ≤ b.addr := h.head_stop_le (by simp)
    by_cases htouch : a.stop (headerSize A) = b.addr
    · obtain ⟨k, m', hk, hexits, hlist, hframe⟩ := ih (h.join htouch)
      have hframea : ∀ x v w, Outside A (a :: b :: rest) x →
          setNext A (setSize A m a.addr v) a.addr w x = m x := by
        intro x v w hx
        have hxa := hx a (by simp)
        simp only [Block.stop] at hxa
        rw [setNext_apply (by omega), setSize_apply (by omega)]
      refine ⟨k + 1, m', by simpa using hk, Exits.next ?_ hexits, ?_, ?_⟩
      · have hsum : A.wrap (a.size + (headerSize A + b.size)) =
            a.size + (headerSize A + b.size) := by
          apply wrap_of_lt
          simp only [Block.stop] at hboundb htouch
          omega
        have hkeep : nextOf A (setSize A m a.addr (a.size + (headerSize A + b.size))) b.addr =
            nextOf A m b.addr :=
          (fields_congr fun x hlo hhi =>
            setSize_apply (by simp only [Block.stop] at hab; omega)).2.2
        have hnextb : nextOf A m b.addr = headAddr 0 rest := h.linked.2.1
        simp [mergeBody, hpos.ne', hposb.ne', hnext, hmagic, hsize, hstop, htouch, hsizeb, hsum,
          hkeep, hnextb]
      · rwa [joinFree, if_pos htouch]
      · intro x hx
        rw [hframe x ?_]
        · exact hframea x _ _ hx
        · intro c hc
          rcases mem_cons.mp hc with rfl | hc
          · have hxa := hx a (by simp)
            have hxb := hx b (by simp)
            rw [Block.join_stop htouch]
            simp only [Block.join_addr]
            omega
          · exact hx c (by simp [hc])
    · obtain ⟨k, m', hk, hexits, hlist, hframe⟩ := ih h.tail
      have hagree : m.AgreeOn m' a.addr (a.addr + headerSize A) := by
        refine agreeOn_of_outside hframe fun c hc => .inl ?_
        have hac := h.head_stop_le hc
        simp only [Block.stop] at hac
        omega
      refine ⟨k + 1, m', by simpa using hk, Exits.next ?_ hexits, ?_, ?_⟩
      · simp [mergeBody, hpos.ne', hposb.ne', hnext, hmagic, hsize, hstop, htouch]
      · rw [joinFree, if_neg htouch]
        obtain ⟨b', rest', heq, haddr⟩ := joinFree_cons (headerSize A) b rest
        refine hlist.cons ((h.header a (by simp)).congr hagree) ?_ ?_ hpos hbound
        · rw [(fields_congr hagree).2.2, hnext, heq, headAddr, haddr]
        · intro c hc
          obtain ⟨d, hd, hcd⟩ := addr_of_mem_joinFree hc
          rw [hcd]
          exact h.head_stop_le hd
      · intro x hx
        exact hframe x fun c hc => hx c (mem_cons_of_mem _ hc)

theorem freeListAt_append :
    FreeListAt A m last (pre ++ post) ↔
      FreeListAt A m (headAddr last post) pre ∧ FreeListAt A m last post ∧
        ∀ a ∈ pre, ∀ b ∈ post, a.stop (headerSize A) ≤ b.addr := by
  constructor
  · intro h
    obtain ⟨hpre, hpost⟩ := linked_append.mp h.linked
    obtain ⟨hspre, hspost, hcross⟩ := pairwise_append.mp h.spaced
    exact ⟨⟨fun b hb => h.header b (by simp [hb]), hpre, hspre,
        fun b hb => h.pos b (by simp [hb]), fun b hb => h.bound b (by simp [hb])⟩,
      ⟨fun b hb => h.header b (by simp [hb]), hpost, hspost,
        fun b hb => h.pos b (by simp [hb]), fun b hb => h.bound b (by simp [hb])⟩, hcross⟩
  · rintro ⟨hpre, hpost, hcross⟩
    exact ⟨forall_mem_append.mpr ⟨hpre.header, hpost.header⟩,
      linked_append.mpr ⟨hpre.linked, hpost.linked⟩,
      pairwise_append.mpr ⟨hpre.spaced, hpost.spaced, hcross⟩,
      forall_mem_append.mpr ⟨hpre.pos, hpost.pos⟩,
      forall_mem_append.mpr ⟨hpre.bound, hpost.bound⟩⟩

/-- The assignment `prev->next = v` for the last block of a list, if it has one. -/
def relink (A : Arch) (m : Memory) (pre : List Block) (v : ℕ) : Memory :=
  if lastAddr 0 pre = 0 then m else setNext A m (lastAddr 0 pre) v

theorem lastAddr_mem (first : ℕ) (b : Block) (bs : List Block) :
    ∃ c ∈ b :: bs, lastAddr first (b :: bs) = c.addr := by
  induction bs generalizing b first with
  | nil => exact ⟨b, by simp, rfl⟩
  | cons d bs ih =>
    obtain ⟨c, hc, haddr⟩ := ih b.addr d
    exact ⟨c, mem_cons_of_mem _ hc, haddr⟩

theorem FreeListAt.relink (h : FreeListAt A m last pre) (hv : v < A.addressSpace) :
    FreeListAt A (relink A m pre v) v pre ∧ ∀ x, Outside A pre x → relink A m pre v x = m x := by
  induction pre with
  | nil =>
    refine ⟨⟨by simp, trivial, List.Pairwise.nil, by simp, by simp⟩, fun x _ => ?_⟩
    simp [Heap.relink, lastAddr]
  | cons b pre ih =>
    have hposb := h.pos b (by simp)
    have hbound := h.bound b (by simp)
    cases pre with
    | nil =>
      have hmem : Heap.relink A m [b] v = setNext A m b.addr v := by
        simp [Heap.relink, lastAddr, hposb.ne']
      obtain ⟨hmagic, hsize⟩ := h.header b (by simp)
      rw [hmem]
      refine ⟨FreeListAt.cons ?_ ?_ ?_ (by simp) hposb hbound, fun x hx => ?_⟩
      · exact ⟨by simp, trivial, List.Pairwise.nil, by simp, by simp⟩
      · exact ⟨by simpa using hmagic, by simpa using hsize⟩
      · simpa [headAddr] using wrap_of_lt hv
      · have hxb := hx b (by simp)
        simp only [Block.stop] at hxb
        exact setNext_apply (by omega)
    | cons c pre =>
      obtain ⟨hlist, hframe⟩ := ih h.tail
      have hmem : Heap.relink A m (b :: c :: pre) v = Heap.relink A m (c :: pre) v := rfl
      rw [hmem]
      have hagree : m.AgreeOn (Heap.relink A m (c :: pre) v) b.addr (b.addr + headerSize A) := by
        refine agreeOn_of_outside hframe fun d hd => .inl ?_
        have hbd := h.head_stop_le hd
        simp only [Block.stop] at hbd
        omega
      refine ⟨hlist.cons ((h.header b (by simp)).congr hagree) ?_ (fun d hd => h.head_stop_le hd)
        hposb hbound, fun x hx => hframe x fun d hd => hx d (mem_cons_of_mem _ hd)⟩
      rw [(fields_congr hagree).2.2]
      exact h.linked.1

theorem FreeListAt.insert (h : FreeListAt A m 0 (pre ++ post)) (hb : HeaderAt A m b)
    (hpre : ∀ c ∈ pre, c.stop (headerSize A) ≤ b.addr)
    (hpost : ∀ c ∈ post, b.stop (headerSize A) ≤ c.addr) (hpos : 0 < b.addr)
    (hbound : b.stop (headerSize A) < A.addressSpace) :
    FreeListAt A (Heap.relink A (setNext A m b.addr (headAddr 0 post)) pre b.addr) 0
        (pre ++ b :: post) ∧
      ∀ x, Outside A (pre ++ [b]) x →
        Heap.relink A (setNext A m b.addr (headAddr 0 post)) pre b.addr x = m x := by
  obtain ⟨hlpre, hlpost, hcross⟩ := freeListAt_append.mp h
  have hstop : b.addr + headerSize A ≤ b.stop (headerSize A) := by simp [Block.stop]
  have hhead : headAddr 0 post < A.addressSpace := by
    cases post with
    | nil => exact Nat.pow_pos (by decide)
    | cons c post =>
      have hc := hlpost.bound c (by simp)
      simp only [Block.stop] at hc
      simp only [headAddr]
      omega
  have hset : ∀ c ∈ pre ++ post,
      m.AgreeOn (setNext A m b.addr (headAddr 0 post)) c.addr (c.addr + headerSize A) := by
    intro c hc x hlo hhi
    apply setNext_apply
    rcases mem_append.mp hc with hc | hc
    · have hcb := hpre c hc
      simp only [Block.stop] at hcb
      omega
    · have hbc := hpost c hc
      omega
  obtain ⟨hrelinked, hframe⟩ :=
    (hlpre.congr fun c hc => hset c (by simp [hc])).relink (v := b.addr) (by omega)
  have hkeep : ∀ c : Block, b.addr ≤ c.addr →
      (setNext A m b.addr (headAddr 0 post)).AgreeOn
        (Heap.relink A (setNext A m b.addr (headAddr 0 post)) pre b.addr)
        c.addr (c.addr + headerSize A) := by
    intro c hc
    refine agreeOn_of_outside hframe fun d hd => .inr ?_
    have hdb := hpre d hd
    omega
  refine ⟨freeListAt_append.mpr ⟨hrelinked, FreeListAt.cons ?_ ?_ ?_ hpost hpos hbound, ?_⟩, ?_⟩
  · refine (hlpost.congr fun c hc => hset c (by simp [hc])).congr fun c hc => hkeep c ?_
    have hbc := hpost c hc
    omega
  · have hheader : HeaderAt A (setNext A m b.addr (headAddr 0 post)) b :=
      ⟨by simpa using hb.1, by simpa using hb.2⟩
    exact hheader.congr (hkeep b le_rfl)
  · rw [(fields_congr (hkeep b le_rfl)).2.2]
    simpa using wrap_of_lt hhead
  · intro c hc d hd
    rcases mem_cons.mp hd with rfl | hd
    · exact hpre c hc
    · exact hcross c hc d hd
  · intro x hx
    rw [hframe x fun d hd => hx d (by simp [hd])]
    have hxb := hx b (by simp)
    exact setNext_apply (by omega)

theorem FreeListAt.unlink (h : FreeListAt A m 0 (pre ++ b :: post)) :
    FreeListAt A (Heap.relink A m pre (nextOf A m b.addr)) 0 (pre ++ post) ∧
      nextOf A m b.addr = headAddr 0 post ∧
      ∀ x, Outside A pre x → Heap.relink A m pre (nextOf A m b.addr) x = m x := by
  obtain ⟨hlpre, hlrest, hcross⟩ := freeListAt_append.mp h
  have hnext : nextOf A m b.addr = headAddr 0 post := hlrest.linked.1
  obtain ⟨hrelinked, hframe⟩ := hlpre.relink (v := nextOf A m b.addr) nextOf_lt
  refine ⟨freeListAt_append.mpr ⟨hnext ▸ hrelinked, hlrest.tail.congr fun c hc => ?_, ?_⟩, hnext,
    hframe⟩
  · exact agreeOn_of_outside hframe fun d hd => .inr (hcross d hd c (by simp [hc]))
  · exact fun c hc d hd => hcross c hc d (by simp [hd])

theorem header_of_assignments (hsize : b.size < A.addressSpace) (hv : v < A.addressSpace) :
    HeaderAt A
        (setNext A (setMagic A (setSize A m b.addr b.size) b.addr heapMagic) b.addr v) b ∧
      nextOf A (setNext A (setMagic A (setSize A m b.addr b.size) b.addr heapMagic) b.addr v)
        b.addr = v ∧
      ∀ x, x < b.addr ∨ b.addr + headerSize A ≤ x →
        setNext A (setMagic A (setSize A m b.addr b.size) b.addr heapMagic) b.addr v x = m x := by
  have hmagic : A.wrap heapMagic = heapMagic := by cases A <;> decide
  refine ⟨⟨by simpa using hmagic, by simpa using wrap_of_lt hsize⟩, by simpa using wrap_of_lt hv,
    fun x hx => ?_⟩
  rw [setNext_apply hx, setMagic_apply hx, setSize_apply hx]

theorem FreeListAt.split {size : ℕ} (h : FreeListAt A m 0 (b :: post))
    (hfit : size + headerSize A + 1 ≤ b.size) :
    FreeListAt A (splitBlock A m size b.addr) 0
        (b.front size :: b.back (headerSize A) size :: post) ∧
      ∀ x, Outside A [b] x → splitBlock A m size b.addr x = m x := by
  obtain ⟨hmagic, hsize⟩ := h.header b (by simp)
  have hbound := h.bound b (by simp)
  have hpos := h.pos b (by simp)
  have hbackStop : (b.back (headerSize A) size).stop (headerSize A) = b.stop (headerSize A) :=
    Block.back_stop (by omega)
  have haddr : (b.back (headerSize A) size).addr = b.addr + headerSize A + size := rfl
  have hbackSize : (b.back (headerSize A) size).size = b.size - size - headerSize A := rfl
  have hstop : b.stop (headerSize A) = b.addr + headerSize A + b.size := rfl
  generalize hc : b.back (headerSize A) size = c at *
  obtain ⟨hheader, hnext, hframe⟩ :=
    header_of_assignments (m := m) (b := c) (v := nextOf A m b.addr) (by omega) nextOf_lt
  generalize hm₁ : setNext A (setMagic A (setSize A m c.addr c.size) c.addr heapMagic) c.addr
    (nextOf A m b.addr) = m₁ at *
  have hmem : splitBlock A m size b.addr = setNext A (setSize A m₁ b.addr size) b.addr c.addr := by
    have hroom : A.wrap (size + headerSize A + 1) = size + headerSize A + 1 := wrap_of_lt (by omega)
    have hwrap : A.wrap (b.addr + headerSize A + size) = c.addr := by
      rw [haddr]
      exact wrap_of_lt (by omega)
    have hkeep : nextOf A (setMagic A (setSize A m c.addr c.size) c.addr heapMagic) b.addr =
        nextOf A m b.addr := by
      refine (fields_congr fun x hlo hhi => ?_).2.2
      rw [setMagic_apply (by omega), setSize_apply (by omega)]
    simp only [splitBlock, hsize, hroom, if_pos hfit, hwrap, ← hbackSize, hkeep, hm₁]
  rw [hmem]
  have hframe₂ : ∀ x, x < b.addr ∨ b.addr + headerSize A ≤ x →
      setNext A (setSize A m₁ b.addr size) b.addr c.addr x = m₁ x := by
    intro x hx
    rw [setNext_apply hx, setSize_apply hx]
  have hagree : m₁.AgreeOn (setNext A (setSize A m₁ b.addr size) b.addr c.addr)
      c.addr (c.addr + headerSize A) := fun x hlo hhi => hframe₂ x (by omega)
  have hmagicb : magicOf A m₁ b.addr = heapMagic := by
    rw [(fields_congr fun x hlo hhi => hframe x (by omega)).1]
    exact hmagic
  refine ⟨FreeListAt.cons (FreeListAt.cons (h.tail.congr ?_) (hheader.congr hagree) ?_ ?_ ?_ ?_)
    ⟨by simpa [Block.front] using hmagicb, ?_⟩ ?_ ?_ hpos ?_, ?_⟩
  · intro d hd x hlo hhi
    have hbd := h.head_stop_le hd
    rw [hframe₂ x (by omega), hframe x (by omega)]
  · rw [(fields_congr hagree).2.2, hnext]
    exact h.linked.1
  · intro d hd
    have hbd := h.head_stop_le hd
    omega
  · omega
  · omega
  · simpa [Block.front] using wrap_of_lt (show size < A.addressSpace by omega)
  · simpa [Block.front, headAddr] using wrap_of_lt (show c.addr < A.addressSpace by omega)
  · intro d hd
    rw [Block.front_stop, hc]
    rcases mem_cons.mp hd with rfl | hd
    · exact le_rfl
    · have hbd := h.head_stop_le hd
      omega
  · rw [Block.front_stop, hc]
    omega
  · intro x hx
    have hxb := hx b (by simp)
    rw [hframe₂ x (by omega), hframe x (by omega)]

end

end Taavi.Heap
