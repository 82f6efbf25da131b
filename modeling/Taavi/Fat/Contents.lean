import Mathlib.Data.List.GetD
import Taavi.Fat.Updates
import Taavi.Fat.Writing

/-!
# The bytes of files

The bytes in the clusters of a chain. `fat32_write_file_at_offset` puts its buffer at the offset and
keeps the other bytes, and `fat32_read_file` gives the first bytes.
-/

namespace Taavi.Fat

open Lib List

variable {m : Mount} {g : Geometry} {s t : State} {v v₀ : Volume} {live : List ℕ}
  {c d f h j x : ℕ} {l l₀ k : List ℕ} {buf : Memory}

/-- The byte at a position of the clusters of a chain. -/
def content (g : Geometry) (v : Volume) (l : List ℕ) (x : ℕ) : UInt8 :=
  v.data (l.getD (x / clusterSize g) 0) (x % clusterSize g)

theorem div_lt_length (hx : x < l.length * clusterSize g) : x / clusterSize g < l.length :=
  Nat.div_lt_of_lt_mul (by rwa [mul_comm])

theorem content_congr {v' : Volume} (h : ∀ e ∈ l, v'.data e = v.data e)
    (hx : x < l.length * clusterSize g) : content g v' l x = content g v l x := by
  have hlt := div_lt_length hx
  unfold content
  rw [h _ (by rw [getD_eq_getElem _ _ hlt]; exact getElem_mem hlt)]

theorem content_append (k : List ℕ) (hx : x < l.length * clusterSize g) :
    content g v (l ++ k) x = content g v l x := by
  have hlt := div_lt_length hx
  unfold content
  rw [getD_append _ _ _ _ hlt]

theorem content_stage {size offset written : ℕ} (hg : Sane g) (hl : l.Nodup)
    (hj : l[j]? = some c) (hoff : offset < clusterSize g) (hx : x < l.length * clusterSize g) :
    content g (v.stage g buf size c offset written) l x =
      if j * clusterSize g + offset ≤ x ∧ x < j * clusterSize g + offset +
          min (size - written) (clusterSize g - offset) then
        buf (written + (x - (j * clusterSize g + offset)))
      else content g v l x := by
  have hpos := hg.clusterSize_pos
  have hlt := div_lt_length hx
  have hsplit := Nat.div_add_mod' x (clusterSize g)
  have hmod := Nat.mod_lt x hpos
  unfold content
  rw [getD_eq_getElem _ _ hlt]
  obtain ⟨hjlt, hjc⟩ := List.getElem?_eq_some_iff.mp hj
  by_cases hq : x / clusterSize g = j
  · subst hq
    rw [hjc, Volume.stage, Volume.setData_data, Function.update_self, clip, if_pos hmod,
      Memory.splice]
    generalize x / clusterSize g * clusterSize g = base at hsplit ⊢
    by_cases hin : base + offset ≤ x ∧
        x < base + offset + min (size - written) (clusterSize g - offset)
    · rw [if_pos hin, if_pos (by omega), Memory.drop]
      congr 1
      omega
    · rw [if_neg hin, if_neg (by omega)]
  · have hne : l[x / clusterSize g] ≠ c := by
      intro heq
      exact hq (hl.getElem_inj_iff.mp (heq.trans hjc.symm))
    have hout : ¬(j * clusterSize g + offset ≤ x ∧
        x < j * clusterSize g + offset + min (size - written) (clusterSize g - offset)) := by
      rintro ⟨hlo, hhi⟩
      refine hq (Nat.div_eq_of_lt_le (by omega) ?_)
      rw [Nat.succ_mul]
      omega
    rw [if_neg hout, Volume.stage, Volume.setData_data, Function.update_of_ne hne]

section

/-- A file of `v₀` with the clusters `l₀` has got the first bytes of a buffer at an offset, and
nothing else has changed. -/
structure Filled (g : Geometry) (v₀ : Volume) (h : ℕ) (l₀ : List ℕ) (start : ℕ) (buf : Memory)
    (written : ℕ) (v : Volume) (l : List ℕ) : Prop where
  chain : Chain v.cells h l
  grown : l₀ <+: l
  fresh : ∀ e ∈ l, e ∈ l₀ ∨ v₀.cells e = .free
  room : l.length + room g v = l₀.length + room g v₀
  new : ∀ x, start ≤ x → x < start + written → x < l.length * clusterSize g →
    content g v l x = buf (x - start)
  old : ∀ x, x < l₀.length * clusterSize g → x < start ∨ start + written ≤ x →
    content g v l x = content g v₀ l₀ x
  cells : ∀ e, e ∉ l → v.cells e = v₀.cells e
  data : ∀ e, e ∉ l → v.data e = v₀.data e

variable {start written offset size : ℕ}

variable {r : (ℕ × ℕ × ℕ) ⊕ Bool}

theorem Filled.refl (hl : Chain v.cells h l) : Filled g v h l start buf 0 v l where
  chain := hl
  grown := prefix_refl l
  fresh _ he := .inl he
  room := rfl
  new x hlo hhi _ := absurd hhi (by omega)
  old _ _ _ := rfl
  cells _ _ := rfl
  data _ _ := rfl

theorem Filled.stage (hg : Sane g) (hfill : Filled g v₀ h l₀ start buf written v l)
    (hj : l[j]? = some c) (hoff : offset < clusterSize g)
    (hpos : j * clusterSize g + offset = start + written) :
    Filled g v₀ h l₀ start buf (written + min (size - written) (clusterSize g - offset))
      (v.stage g buf size c offset written) l := by
  have hprefix := hfill.grown.length_le
  have hcontent : ∀ x, x < l.length * clusterSize g →
      content g (v.stage g buf size c offset written) l x =
        if j * clusterSize g + offset ≤ x ∧ x < j * clusterSize g + offset +
            min (size - written) (clusterSize g - offset) then
          buf (written + (x - (j * clusterSize g + offset)))
        else content g v l x :=
    fun x hx => content_stage hg hfill.chain.nodup hj hoff hx
  refine ⟨hfill.chain, hfill.grown, hfill.fresh, hfill.room, ?_, ?_, hfill.cells, ?_⟩
  · intro x hlo hhi hx
    rw [hcontent x hx]
    split_ifs with hin
    · congr 1
      omega
    · exact hfill.new x hlo (by omega) hx
  · intro x hx hout
    have hx' : x < l.length * clusterSize g := hx.trans_le (Nat.mul_le_mul_right _ hprefix)
    rw [hcontent x hx', if_neg (by omega)]
    exact hfill.old x hx (by omega)
  · intro e he
    have hne : e ≠ c := by
      rintro rfl
      exact he (mem_of_getElem? hj)
    rw [Volume.stage, Volume.setData_data, Function.update_of_ne hne]
    exact hfill.data e he

theorem Filled.append (hfill : Filled g v₀ h l₀ start buf written v l) (hj : l[j]? = some c)
    (hlast : v.cells c = .last) (hfree : nextFree g v = some f)
    (hwrote : start + written ≤ l.length * clusterSize g) :
    Filled g v₀ h l₀ start buf written (v.append c f) (l ++ [f]) := by
  have hcell := free_of_nextFree hfree
  have hmem : c ∈ l := mem_of_getElem? hj
  have hf : f ∉ l := fun hf => (hfill.chain.used_of_mem hf).not_free hcell
  have hprefix := hfill.grown.length_le
  refine ⟨chain_append hfill.chain hmem hlast hcell,
    hfill.grown.trans (prefix_append l [f]), ?_, ?_, ?_, ?_, ?_, ?_⟩
  · intro e he
    rcases mem_append.mp he with he | he
    · exact hfill.fresh e he
    · rw [mem_singleton.mp he]
      refine .inr ?_
      rw [← hfill.cells f hf]
      exact hcell
  · have hroom := room_append hfree hlast
    have hold := hfill.room
    rw [length_append, length_singleton]
    omega
  · intro x hlo hhi _
    have hx : x < l.length * clusterSize g := by omega
    rw [content_append [f] hx]
    exact hfill.new x hlo hhi hx
  · intro x hx hout
    have hx' : x < l.length * clusterSize g := hx.trans_le (Nat.mul_le_mul_right _ hprefix)
    rw [content_append [f] hx']
    exact hfill.old x hx hout
  · intro e he
    have hec : e ≠ c := fun heq => he (mem_append_left _ (heq ▸ hmem))
    have hef : e ≠ f := fun heq => he (mem_append_right _ (mem_singleton.mpr heq))
    have hcells : (v.append c f).cells e = v.cells e := by
      simp [Volume.append, hec, hef]
    rw [hcells]
    exact hfill.cells e fun hel => he (mem_append_left _ hel)
  · exact fun e he => hfill.data e fun hel => he (mem_append_left _ hel)

/-- The file has as many clusters as before, or the loop has still to write to its last one. -/
def Tight (g : Geometry) (l₀ l : List ℕ) (j last : ℕ) : Prop :=
  l = l₀ ∨ (l.length = j + 1 ∧ j * clusterSize g < last)

/-- The loop of `fat32_write_file_at_offset` is at a cluster of the file. -/
structure FillingAt (g : Geometry) (s t : State) (h : ℕ) (l₀ : List ℕ) (start : ℕ) (buf : Memory)
    (size c offset written : ℕ) : Prop where
  filled : ∃ l j, Filled g (volume g s) h l₀ start buf written (volume g t) l ∧ l[j]? = some c ∧
    j * clusterSize g + offset = start + written ∧ Tight g l₀ l j (start + size) ∧
    EntriesKept g l s t
  inside : offset < clusterSize g
  bound : written ≤ size

/-- What the loop leaves: a file with the bytes of the buffer and as many clusters as it needs. -/
def FilledFile (g : Geometry) (s t : State) (h : ℕ) (l₀ : List ℕ) (start : ℕ) (buf : Memory)
    (size : ℕ) : Prop :=
  ∃ l, Filled g (volume g s) h l₀ start buf size (volume g t) l ∧
    start + size ≤ l.length * clusterSize g ∧
    l.length = max l₀.length ((start + size + (clusterSize g - 1)) / clusterSize g) ∧
    EntriesKept g l s t

theorem length_of_tight (hpos : 0 < clusterSize g) {last : ℕ} (hgrown : l₀ <+: l)
    (htight : Tight g l₀ l j last) (hcover : last ≤ l.length * clusterSize g) :
    l.length = max l₀.length ((last + (clusterSize g - 1)) / clusterSize g) := by
  have hneeded : (last + (clusterSize g - 1)) / clusterSize g ≤ l.length := by
    rw [Nat.div_le_iff_le_mul_add_pred hpos, mul_comm]
    omega
  rcases htight with rfl | ⟨hlen, hmore⟩
  · omega
  · have hlast : j < (last + (clusterSize g - 1)) / clusterSize g := by
      rw [Nat.lt_div_iff_mul_lt hpos]
      omega
    have hle := hgrown.length_le
    omega

theorem Filled.passed (hg : Sane m) (hheap : ¬HeapFails m) {v' : Volume}
    (hfill : Filled m v₀ h l₀ start buf written v l) (hj : l[j]? = some c)
    (hpos : j * clusterSize m + offset = start + written)
    (hinside : offset < clusterSize m) (hbound : written ≤ size)
    (hpassed : Passed m v buf size c offset written r v') :
    (r = .inr true ∧ Filled m v₀ h l₀ start buf size v' l ∧
      start + size ≤ l.length * clusterSize m) ∨
    ∃ c' written' l', r = .inl (c', 0, written') ∧ written < written' ∧ written' < size ∧
      Filled m v₀ h l₀ start buf written' v' l' ∧ l'[j + 1]? = some c' ∧
      (j + 1) * clusterSize m = start + written' ∧
      (l' = l ∨ (l' = l ++ [c'] ∧ l.length = j + 1)) := by
  have hstage : Filled m v₀ h l₀ start buf (written + min (size - written) (clusterSize m - offset))
      (v.stage m buf size c offset written) l :=
    hfill.stage hg hj hinside hpos
  have hjlt : j < l.length := (List.getElem?_eq_some_iff.mp hj).1
  have hcover : (j + 1) * clusterSize m ≤ l.length * clusterSize m := Nat.mul_le_mul_right _ hjlt
  rw [Nat.succ_mul] at hcover
  cases hpassed with
  | done hdone =>
    have hall : written + min (size - written) (clusterSize m - offset) = size := by omega
    rw [hall] at hstage
    exact .inl ⟨rfl, hstage, by omega⟩
  | next hmore hto =>
    rw [Nat.min_eq_right (by omega)] at hstage
    refine .inr ⟨_, _, l, rfl, by omega, hmore, hstage, ?_, ?_, .inl rfl⟩
    · exact hstage.chain.getElem?_next hj hto
    · rw [Nat.succ_mul]
      omega
  | @linked f hmore hlast hfree =>
    rw [Nat.min_eq_right (by omega)] at hstage
    have hlen := hstage.chain.length_eq_of_last hj hlast
    have happend := hstage.append hj hlast hfree (by omega)
    refine .inr ⟨_, _, l ++ [f], rfl, by omega, hmore, happend, ?_, ?_, .inr ⟨rfl, hlen⟩⟩
    · rw [← hlen, List.getElem?_append_right (le_refl _), Nat.sub_self]
      rfl
    · rw [Nat.succ_mul]
      omega
  | failed hfail => exact absurd hfail hheap

theorem FillingAt.passed (hg : Sane m) (hheap : ¬HeapFails m) {u : State}
    (hat : FillingAt m s t h l₀ start buf size c offset written)
    (hpassed : Passed m (volume m t) buf size c offset written r (volume m u))
    (hentries : ∀ k, c ∈ k → (∀ b, r = .inl b → b.1 ∈ k) → HeapFails m ∨ EntriesKept m k t u) :
    (∃ c' offset' written', r = .inl (c', offset', written') ∧ size - written' < size - written ∧
      FillingAt m s u h l₀ start buf size c' offset' written') ∨
    (r = .inr true ∧ FilledFile m s u h l₀ start buf size) := by
  obtain ⟨⟨l, j, hfill, hj, hpos, htight, hkept⟩, hinside, hbound⟩ := hat
  have hc : c ∈ l := mem_of_getElem? hj
  rcases hfill.passed hg hheap hj hpos hinside hbound hpassed with
    ⟨rfl, hend, hcover⟩ | ⟨c', written', l', rfl, hless, hlt, hnext, hj', hpos', hgrown⟩
  · have hsame := (hentries l hc (by simp)).resolve_left hheap
    refine .inr ⟨rfl, l, hend, hcover, ?_, ?_⟩
    · exact length_of_tight hg.clusterSize_pos hend.grown htight hcover
    · exact hkept.trans hsame (List.Subset.refl l) (List.Subset.refl l)
  · have hsub : l ⊆ l' := by
      rcases hgrown with rfl | ⟨rfl, -⟩
      · exact List.Subset.refl _
      · exact subset_append_left l [c']
    have hc' : c' ∈ l' := mem_of_getElem? hj'
    have hsame : EntriesKept m l' t u := by
      refine (hentries l' (hsub hc) ?_).resolve_left hheap
      rintro b hb
      rwa [← Sum.inl.inj hb]
    refine .inl ⟨_, _, _, rfl, by omega, ⟨l', j + 1, hnext, hj', hpos', ?_, ?_⟩,
      hg.clusterSize_pos, hlt.le⟩
    · rcases hgrown with rfl | ⟨rfl, hlen⟩
      · rcases htight with rfl | ⟨hlen, -⟩
        · exact .inl rfl
        · rw [List.getElem?_eq_none (by omega)] at hj'
          cases hj'
      · exact .inr ⟨by rw [length_append, hlen]; rfl, by omega⟩
    · exact hkept.trans hsame hsub (List.Subset.refl l')

theorem FillingAt.room_pos (hat : FillingAt g s t h l₀ start buf size c offset written)
    (hspace : start + size ≤ (l₀.length + Fat.room g (volume g s)) * clusterSize g)
    (hlast : (volume g t).cells c = .last) (hmore : written + (clusterSize g - offset) < size) :
    0 < Fat.room g (volume g t) := by
  obtain ⟨⟨l, j, hfill, hj, hpos, -⟩, hinside, -⟩ := hat
  have hlen := hfill.chain.length_eq_of_last hj hlast
  rw [← hfill.room, hlen] at hspace
  by_contra hzero
  rw [Nat.eq_zero_of_not_pos hzero, add_zero, Nat.succ_mul] at hspace
  omega

theorem FillingAt.used (hat : FillingAt g s t h l₀ start buf size c offset written) :
    Used (volume g t).cells c := by
  obtain ⟨⟨l, j, hfill, hj, -⟩, -, -⟩ := hat
  exact hfill.chain.used_of_mem (mem_of_getElem? hj)

end

theorem writeFileAtOffset_fills (hm : Ready m) (hheap : ¬HeapFails m) {start size fuel : ℕ}
    (buf : Memory) (hl : Chain (volume m s).cells h l) (hstart : start / clusterSize m < l.length)
    (hspace : start + size ≤ (l.length + room m (volume m s)) * clusterSize m)
    (hfuel : size < fuel) :
    Ends (writeFileAtOffset m fuel h start buf size) s fun r t => r = true ∧
      Effect m s t (volume m t) s.live ∧ FilledFile m s t h l start buf size := by
  refine ((walkClusters_spec hm hl (.refl _ s)).and (reads_walkClusters m _ h s)).bind ?_
  rintro r t ⟨⟨ht, ⟨rfl, hwhy⟩ | ⟨c, rfl, hlt, hk⟩⟩, hdisk⟩
  · rcases hwhy with hfail | hshort
    · exact absurd hfail hheap
    · omega
  · refine ((allocateBuffer_spec m t).and (reads_allocateBuffer m t)).bind ?_
    rw [ht.volume, ht.live]
    rintro _ u ⟨⟨rfl, hfail, hu⟩ | ⟨block, rfl, hu⟩, hdisk'⟩
    · exact absurd hfail hheap
    · replace hu := ht.trans hu
      have hpos := hm.sane.clusterSize_pos
      have hfst : l[start / clusterSize m]? = some c := by
        obtain ⟨k, hcons⟩ := hk.exists_cons
        rw [← List.head?_drop, hcons]
        rfl
      have hat : FillingAt m s u h l start buf size c (start % clusterSize m) 0 := by
        refine ⟨⟨l, _, ?_, hfst, Nat.div_add_mod' .., .inl rfl, .of_disk (hdisk'.trans hdisk)⟩,
          Nat.mod_lt _ hpos, Nat.zero_le _⟩
        rw [hu.volume]
        exact .refl hl
      let inv : ℕ → ℕ × ℕ × ℕ → State → Prop := fun n b w => n = size - b.2.2 ∧
        Effect m s w (volume m w) (block :: s.live) ∧
          FillingAt m s w h l start buf size b.1 b.2.1 b.2.2
      -- each pass writes something
      have hbody : ∀ n b w, inv n b w → Ends (writePass m block buf size b) w fun r x =>
          (∃ next k, r = .inl next ∧ k < n ∧ inv k next x) ∨
            ∃ ok, r = .inr ok ∧ ok = true ∧ Effect m s x (volume m x) s.live ∧
              FilledFile m s x h l start buf size := by
        rintro n ⟨c', offset', written⟩ w ⟨rfl, hw, hat'⟩
        refine (writePass_spec hm hat'.used (hat'.room_pos hspace) hw).imp ?_
        rintro r x ⟨v', hpassed, hx, hentries⟩
        obtain rfl := hx.volume
        rcases hat'.passed hm.sane hheap hpassed hentries with
          ⟨c'', offset'', written', rfl, hless, hnext⟩ | ⟨rfl, hend⟩
        · rw [if_neg (by simp)] at hx
          exact .inl ⟨_, _, rfl, hless, rfl, hx, hnext⟩
        · rw [if_pos rfl] at hx
          exact .inr ⟨true, rfl, rfl, hx, hend⟩
      have hinv : inv size (c, start % clusterSize m, 0) u := by
        refine ⟨rfl, ?_, hat⟩
        rwa [hu.volume]
      exact ends_iterate inv hbody hinv hfuel

section

/-- The number that the table leads to from a cluster in some steps. -/
def walk (g : Geometry) (s : State) (c k : ℕ) : ℕ := (nextOf g s.disk)^[k] c

theorem walk_succ (g : Geometry) (s : State) (c k : ℕ) :
    walk g s c (k + 1) = nextOf g s.disk (walk g s c k) := Function.iterate_succ_apply' ..

def walkedBytes (g : Geometry) (s : State) (c x : ℕ) : UInt8 :=
  bytesOf g s.disk (walk g s c (x / clusterSize g)) (x % clusterSize g)

/-- The first numbers have sectors, and none of the next ones is an end. -/
def Passes (g : Geometry) (s : State) (c k : ℕ) : Prop :=
  ∀ j < k, clusterToSector g (walk g s c j) ≠ invalidCluster ∧ walk g s c (j + 1) < clusterEocMin

/-- The loop of `fat32_read_file` after some passes. -/
structure ReadingAt (g : Geometry) (s : State) (c size k : ℕ) (b : ℕ × ℕ × Memory) : Prop where
  cluster : b.1 = walk g s c k
  position : k * clusterSize g = b.2.1
  more : k = 0 ∨ k * clusterSize g < size
  passed : Passes g s c k
  bytes : ∀ x < b.2.1, b.2.2 x = walkedBytes g s c x

/-- How `fat32_read_file` ends. -/
inductive ReadOutcome (fails : Prop) (g : Geometry) (s : State) (c size : ℕ) : Option Memory → Prop
  | failed : fails → ReadOutcome fails g s c size none
  | unreadable {k : ℕ} : k = 0 ∨ k * clusterSize g < size → Passes g s c k →
      clusterToSector g (walk g s c k) = invalidCluster → ReadOutcome fails g s c size none
  | read {filled : Memory} {k : ℕ} : Passes g s c k →
      clusterToSector g (walk g s c k) ≠ invalidCluster →
      size ≤ (k + 1) * clusterSize g ∨ clusterEocMin ≤ walk g s c (k + 1) →
      (∀ x < size, x < (k + 1) * clusterSize g → filled x = walkedBytes g s c x) →
      ReadOutcome fails g s c size (some filled)

variable {size k : ℕ}

theorem ReadingAt.splice {b : ℕ × ℕ × Memory} (hat : ReadingAt g s c size k b)
    (hx : x < b.2.1 + min (clusterSize g) (size - b.2.1)) :
    b.2.2.splice b.2.1 (bytesOf g s.disk b.1) (min (clusterSize g) (size - b.2.1)) x =
      walkedBytes g s c x := by
  have hpos := hat.position
  unfold Memory.splice
  split_ifs with hin
  · have hdiv : x / clusterSize g = k := by
      refine Nat.div_eq_of_lt_le (by omega) ?_
      rw [Nat.succ_mul]
      omega
    have hmod : x % clusterSize g = x - b.2.1 := by
      have hsplit := Nat.div_add_mod' x (clusterSize g)
      rw [hdiv] at hsplit
      omega
    rw [walkedBytes, hdiv, hmod, hat.cluster]
  · exact hat.bytes x (by omega)

theorem readFile_outcome (hpos : 0 < clusterSize m) {fuel : ℕ} (hfuel : size < fuel) (buf : Memory)
    (s : State) :
    Ends (readFile m fuel c size buf) s fun r t =>
      t.live = s.live ∧ ReadOutcome (Fails m) m s c size r := by
  refine (allocateBuffer_outcome m s).bind ?_
  rintro _ _ (⟨hfail, rfl, rfl⟩ | ⟨-, rfl, rfl⟩)
  · exact ends_pure ⟨rfl, .failed (.inl ⟨_, hfail⟩)⟩
  -- after a failure of `__fat32_next_cluster` the number of the cluster is zero
  let inv : ℕ → ℕ × ℕ × Memory → State → Prop := fun n b t => n = size - b.2.1 ∧
    (b.1 = invalidCluster ∧ Fails m ∨ ∃ k, ReadingAt m s c size k b) ∧ t.disk = s.disk ∧
      t.live = s.mallocs :: s.live
  have hinv : inv size (c, 0, buf)
      { s with mallocs := s.mallocs + 1, live := s.mallocs :: s.live } :=
    ⟨rfl, .inr ⟨0, rfl, zero_mul _, .inl rfl, fun _ hj => absurd hj (Nat.not_lt_zero _),
      fun _ hx => absurd hx (Nat.not_lt_zero _)⟩, rfl, rfl⟩
  refine ends_iterate inv ?_ hinv hfuel
  rintro n ⟨d, bytesRead, filled⟩ t ⟨rfl, hat, hdisk, hlive⟩
  unfold readPass
  refine (readCluster_outcome m d t).bind ?_
  rintro _ u ⟨hu, ⟨rfl, hwhy⟩ | ⟨hsec, rfl⟩⟩
  · refine (ends_kfree_pure (hu.2.2.1.trans hlive)).imp ?_
    rintro _ w ⟨rfl, -, hw⟩
    refine .inr ⟨none, rfl, hw, ?_⟩
    rcases hwhy with hsec | hfail
    · rcases hat with ⟨-, hfail⟩ | ⟨k, hat⟩
      · exact .failed hfail
      · exact .unreadable hat.more hat.passed (hat.cluster ▸ hsec)
    · exact .failed (.inr hfail)
  · have hne : d ≠ invalidCluster := by
      rintro rfl
      exact hsec rfl
    obtain ⟨k, hat⟩ := hat.resolve_left fun h => hne h.1
    obtain rfl : d = walk m s c k := hat.cluster
    have hsucc : (k + 1) * clusterSize m = bytesRead + clusterSize m := by
      rw [Nat.succ_mul, hat.position]
    have hsplice : ∀ x < bytesRead + min (clusterSize m) (size - bytesRead), _ :=
      fun x hx => hat.splice hx
    rw [hdisk]
    dsimp only at hsplice ⊢
    split_ifs with hdone
    · refine (ends_kfree_pure (hu.2.2.1.trans hlive)).imp ?_
      rintro _ w ⟨rfl, -, hw⟩
      exact .inr ⟨_, rfl, hw, .read hat.passed hsec (.inl (by omega)) fun x hx _ =>
        hsplice x (by omega)⟩
    · refine (nextCluster_outcome m _ u).bind ?_
      rintro next w ⟨hw, hnext⟩
      rw [hu.1, hdisk, ← walk_succ] at hnext
      have hlive' := hw.2.2.1.trans (hu.2.2.1.trans hlive)
      split_ifs with hend
      · refine (ends_kfree_pure hlive').imp ?_
        rintro _ y ⟨rfl, -, hy⟩
        rcases hnext with rfl | ⟨rfl, -⟩
        · exact .inr ⟨_, rfl, hy, .read hat.passed hsec (.inr hend) fun x _ hx =>
            hsplice x (by omega)⟩
        · exact absurd hend (by decide)
      · refine ends_pure (.inl ⟨_, _, rfl, ?_, rfl, ?_, hw.1.trans (hu.1.trans hdisk), hlive'⟩)
        · dsimp only
          omega
        · refine hnext.symm.imp_right fun hnext => ⟨k + 1, hnext, ?_, .inr ?_, ?_, hsplice⟩
          · dsimp only
            omega
          · omega
          · intro j hj
            rcases Nat.lt_succ_iff_lt_or_eq.mp hj with hj | rfl
            · exact hat.passed j hj
            · exact ⟨hsec, hnext ▸ Nat.lt_of_not_le hend⟩

theorem getElem?_walk (hg : Sane g) (hl : Chain (volume g s).cells h l) (hk : k < l.length) :
    l[k]? = some (walk g s h k) := by
  induction k with
  | zero =>
    obtain ⟨k, rfl⟩ := hl.exists_cons
    rfl
  | succ k ih =>
    have hat := ih (Nat.lt_of_succ_lt hk)
    rcases hl.used_of_mem (mem_of_getElem? hat) with hlast | ⟨d, hto⟩
    · exact absurd (hl.length_eq_of_last hat hlast) (Nat.ne_of_gt hk)
    · have hc : InRange g (walk g s h k) := inRange_of_used (.inr ⟨d, hto⟩)
      rw [hl.getElem?_next hat hto, walk_succ, hg.nextOf_eq hc]
      rw [cells_eq hc] at hto
      rw [(cellOf_eq_next hto).1]

/-- The clusters that are needed for a number of bytes are clusters of the volume. -/
def Covers (g : Geometry) (s : State) (c size : ℕ) : Prop :=
  ∀ k, k = 0 ∨ k * clusterSize g < size → InRange g (walk g s c k)

theorem ReadOutcome.bytes (hg : Sane g) {fails : Prop} {filled : Memory}
    (h : ReadOutcome fails g s c size (some filled)) (hcovers : Covers g s c size) :
    ∀ x < size, filled x =
      (volume g s).data (walk g s c (x / clusterSize g)) (x % clusterSize g) := by
  cases h with
  | @read _ k _ _ hend hbytes =>
    have henough : size ≤ (k + 1) * clusterSize g := by
      by_contra hless
      have hlast := hend.resolve_left hless
      have hlow := (hcovers (k + 1) (.inr (Nat.lt_of_not_le hless))).2
      have hmarks := hg.marks
      unfold clusterEocMin at hlast
      omega
    intro x hx
    have hin := hcovers (x / clusterSize g) (.inr ((Nat.div_mul_le_self ..).trans_lt hx))
    rw [hbytes x hx (hx.trans_le henough), walkedBytes, hg.bytesOf_eq hin]

theorem ReadOutcome.content (hg : Sane g) {fails : Prop} {r : Option Memory}
    (hr : ReadOutcome fails g s h size r) (hl : Chain (volume g s).cells h l)
    (hsize : size ≤ l.length * clusterSize g) :
    r = none ∧ fails ∨
      ∃ filled, r = some filled ∧ ∀ x < size, filled x = Fat.content g (volume g s) l x := by
  have hwalk : ∀ k, k = 0 ∨ k * clusterSize g < size → l[k]? = some (walk g s h k) := by
    intro k hk
    refine getElem?_walk hg hl ?_
    rcases hk with rfl | hk
    · exact length_pos_of_mem hl.self_mem
    · exact Nat.lt_of_mul_lt_mul_right (hk.trans_le hsize)
  have hcovers : Covers g s h size := fun k hk =>
    (Effect.refl g s).inRange (hl.used_of_mem (mem_of_getElem? (hwalk k hk)))
  cases r with
  | none =>
    rcases hr with hfail | ⟨hk, -, hsec⟩
    · exact .inl ⟨rfl, hfail⟩
    · exact absurd hsec (hg.clusterToSector_ne (hcovers _ hk))
  | some filled =>
    refine .inr ⟨filled, rfl, fun x hx => ?_⟩
    rw [hr.bytes hg hcovers x hx, Fat.content, getD_eq_getElem?_getD,
      hwalk _ (.inr ((Nat.div_mul_le_self ..).trans_lt hx))]
    rfl

theorem readFile_spec (hm : Ready m) (hheap : ¬HeapFails m) {fuel : ℕ}
    (hl : Chain (volume m s).cells h l) (hsize : size ≤ l.length * clusterSize m)
    (hfuel : size < fuel) :
    Ends (readFile m fuel h size buf) s fun r _ =>
      ∃ filled, r = some filled ∧ ∀ x < size, filled x = content m (volume m s) l x := by
  refine (readFile_outcome hm.sane.clusterSize_pos hfuel buf s).imp fun r _ hr => ?_
  exact (hr.2.content hm.sane hl hsize).resolve_left fun hnone => hm.not_fails hheap hnone.2

theorem grows_readFile (m : Mount) (c size : ℕ) (buf : Memory) :
    Grows fun n => readFile m n c size buf :=
  grows_option (grows_const _) fun _ => grows_iterate _ _

end

/-- The first slot of a directory with the number of the file has its size, and its clusters its
bytes. -/
structure Stored (g : Geometry) (v : Volume) (h dir : ℕ) (place : ℕ × ℕ) (bytes : List UInt8) :
    Prop where
  file : ∃ l, Chain v.cells h l ∧ bytes.length ≤ l.length * clusterSize g ∧
    ∀ x (hx : x < bytes.length), content g v l x = bytes[x]
  entry : ∃ k, Chain v.cells dir k ∧ findSlot g v (fun e => e.cluster == h) k = some place
  live : (slot v place.1 place.2).Live
  size : (slot v place.1 place.2).size = bytes.length
  apart : ∀ l k, Chain v.cells h l → Chain v.cells dir k → ∀ e ∈ l, e ∉ k

variable {dir size : ℕ} {place : ℕ × ℕ} {bytes : List UInt8} {v' : Volume}

theorem Stored.directory {start : ℕ} (hstore : Stored g v h dir place bytes)
    (hl : Chain v.cells h l) (hfill : Filled g v h l start buf size v' k) :
    ∃ dirs, Chain v.cells dir dirs ∧ findSlot g v (fun e => e.cluster == h) dirs = some place ∧
      (∀ e ∈ dirs, e ∉ k) ∧ ∀ e ∈ dirs, v'.cells e = v.cells e ∧ v'.data e = v.data e := by
  obtain ⟨dirs, hdirs, hfind⟩ := hstore.entry
  have hnot : ∀ e ∈ dirs, e ∉ k := by
    intro e he hmem
    rcases hfill.fresh e hmem with hold | hfree
    · exact hstore.apart l dirs hl hdirs e hold he
    · exact (hdirs.used_of_mem he).not_free hfree
  exact ⟨dirs, hdirs, hfind, hnot, fun e he =>
    ⟨hfill.cells e (hnot e he), hfill.data e (hnot e he)⟩⟩

theorem Stored.write {start : ℕ} {l' : List ℕ} (hstore : Stored g v h dir place bytes)
    (hl : Chain v.cells h l) (hfill : Filled g v h l start buf size v' l')
    (hcover : start + size ≤ l'.length * clusterSize g) (hstart : start ≤ bytes.length)
    (hsmall : start + size < 2 ^ 32) :
    (∃ dirs, Chain v'.cells dir dirs ∧ findSlot g v' (fun e => e.cluster == h) dirs = some place) ∧
    Stored g (v'.setSize g place.1 place.2 (start + size)) h dir place
      (bytes.take start ++ (List.range size).map buf) := by
  obtain ⟨dirs, hdirs, hfind, hnot, hsame⟩ := hstore.directory hl hfill
  obtain ⟨l₁, hl₁, hcap, hbytes⟩ := hstore.file
  obtain rfl := hl₁.unique hl
  have hdirs' : Chain v'.cells dir dirs := hdirs.congr fun e he => (hsame e he).1
  have hfind' : findSlot g v' (fun e => e.cluster == h) dirs = some place :=
    (findSlot_congr fun e he => (hsame e he).2).trans hfind
  obtain ⟨hplace, hi, -⟩ := findSlot_eq_some hfind'
  have hslot : slot v' place.1 place.2 = slot v place.1 place.2 := by
    rw [slot, (hsame _ hplace).2, slot]
  have hslot' : slot (v'.setSize g place.1 place.2 (start + size)) place.1 place.2 =
      { slot v place.1 place.2 with size := start + size } := by
    rw [slot_setSize hi, if_pos ⟨rfl, rfl⟩, hslot, Nat.mod_eq_of_lt hsmall]
  have hdata : ∀ e ∈ l', (v'.setSize g place.1 place.2 (start + size)).data e = v'.data e := by
    intro e he
    have hne : e ≠ place.1 := by
      rintro rfl
      exact hnot _ hplace he
    rw [Volume.setSize, Volume.setData_data, Function.update_of_ne hne]
  have hlen : (bytes.take start ++ (List.range size).map buf).length = start + size := by
    simp [hstart]
  refine ⟨⟨dirs, hdirs', hfind'⟩, ⟨l', hfill.chain, by rw [hlen]; exact hcover, ?_⟩,
    ⟨dirs, hdirs', (findSlot_setSize fun _ _ => rfl).trans hfind'⟩, ?_, ?_, ?_⟩
  · intro x hx
    have hlt : x < start + size := hlen ▸ hx
    rw [content_congr hdata (hlt.trans_le hcover)]
    by_cases hpre : x < start
    · have hxb : x < bytes.length := hpre.trans_le hstart
      rw [hfill.old x (hxb.trans_le hcap) (.inl hpre), hbytes x hxb,
        getElem_append_left (by simp [hpre, hxb]), getElem_take]
    · rw [hfill.new x (Nat.le_of_not_lt hpre) hlt (hlt.trans_le hcover),
        getElem_append_right (by simp; omega)]
      simp [hstart]
  · rw [hslot']
    exact hstore.live
  · rw [hslot', hlen]
  · intro l₂ k₂ hl₂ hk₂ e he hek
    rw [hl₂.unique hfill.chain] at he
    rw [hk₂.unique hdirs'] at hek
    exact hnot e hek he

end Taavi.Fat
