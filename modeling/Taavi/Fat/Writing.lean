import Taavi.Fat.Tree

/-!
# Writing files

What `fat32_write_file` and `fat32_write_file_at_offset` do to the chains of a volume that has
enough free clusters.
-/

namespace Taavi.Fat

open Lib List

variable {m : Mount} {g : Geometry} {s t : State} {v v₀ : Volume} {live : List ℕ}
  {c d f h : ℕ} {l k : List ℕ} {buf : Memory}

theorem room_append (hfree : nextFree g v = some f) (hlast : v.cells c = .last) :
    room g (v.append c f) + 1 = room g v := by
  have hcf := Used.ne (.inl hlast) (free_of_nextFree hfree)
  have hsame : room g (v.append c f) = room g (v.take f) := by
    refine room_congr rfl fun x => ?_
    by_cases hx : x = c
    · simp [Volume.append, hx, hcf, hlast]
    · simp [Volume.append, hx]
  rw [hsame, room_take hfree]

theorem room_setData (v : Volume) (c : ℕ) (buf : Memory) :
    room g (v.setData c buf) = room g v := room_congr rfl fun _ => Iff.rfl

/-- The loop of `fat32_write_file` has no cluster yet, or a file of clusters that were free. -/
def Writing (g : Geometry) (v₀ v : Volume) (first prev : ℕ) : Prop :=
  (first = 0 ∧ prev = 0) ∨
    (prev ≠ 0 ∧ v₀.cells prev = .free ∧ v.cells prev = .last ∧ IsFile g v first ∧
      ∃ l, Chain v.cells first l ∧ prev ∈ l)

theorem writeClusters_spec (hm : Ready m) {size left i first prev : ℕ}
    (hp : Progress m (fun _ => False) v₀ v) (hloop : Writing m v₀ v first prev)
    (hroom : left ≤ room m v) (ht : Effect m s t v live) :
    Ends (writeClusters m buf size left i first prev) t fun r u =>
      ∃ v', Effect m s u v' live ∧ Progress m (fun _ => False) v₀ v' ∧
        match r with
        | none => HeapFails m
        | some (first', prev') => Writing m v₀ v' first' prev' := by
  induction left generalizing v i first prev t with
  | zero => exact ends_pure ⟨v, ht, hp, hloop⟩
  | succ left ih =>
    obtain ⟨f, hfree⟩ := exists_nextFree (g := m) (v := v) (by omega)
    have hcell := free_of_nextFree hfree
    have hf : InRange m f := ht.inRange_of_nextFree hfree
    have hsmall := hm.sane.lt_of_inRange hf
    have hpos := hf.ne_invalid
    have hfree₀ : v₀.cells f = .free := hp.grown.free_of_free hcell
    have htake : Progress m (fun _ => False) v₀ (v.take f) :=
      hp.trans (hp.consistent.take hcell) fun _ => .inl
    have hnext := hfree
    rw [← ht.volume] at hnext
    unfold writeClusters
    refine (allocCluster_spec hm hnext).bind ?_
    rw [ht.volume, ht.live]
    rintro cluster u (⟨rfl, hu, -⟩ | ⟨rfl, hfail, hu⟩)
    · replace hu := ht.trans hu
      rw [if_neg hpos]
      -- the cluster begins the file or is linked to its last one
      have hlinked : Ends (setPrev m prev cluster) u fun r w => ∃ v', Effect m s w v' live ∧
            Progress m (fun _ => False) v₀ v' ∧
            ((r = true ∧ room m v' + 1 = room m v ∧
              Writing m v₀ v' (if first = 0 then cluster else first) cluster) ∨
              (r = false ∧ HeapFails m)) := by
        rcases hloop with ⟨rfl, rfl⟩ | ⟨hprev, hprev₀, hlast, hfile, l, hl, hmem⟩
        · refine ends_pure ⟨_, hu, htake, .inl ⟨rfl, room_take hfree, .inr ?_⟩⟩
          refine ⟨hpos, hfree₀, by simp, isFile_take hp.consistent hcell, [cluster], ?_, ?_⟩
          · exact .last (by simp)
          · simp
        · rw [setPrev, if_neg hprev]
          have hrange : InRange m prev := ht.inRange (.inl hlast)
          have happend : Progress m (fun _ => False) v₀ (v.append prev cluster) := by
            refine hp.trans (hp.consistent.append hfile hl hmem hlast hcell) ?_
            rintro _ rfl
            exact .inr hprev₀
          refine (setCluster_spec hm hrange hsmall u).imp ?_
          rw [hu.volume, hu.live, hm.sane.cellOf_inRange hf]
          rintro r w (⟨rfl, hw, -⟩ | ⟨rfl, hfail, hw⟩)
          · refine ⟨_, hu.trans hw, happend, .inl ⟨rfl, room_append hfree hlast, .inr ?_⟩⟩
            have hfst : first ≠ 0 := by
              rintro rfl
              exact absurd (ht.inRange hfile.head.used).1 (by decide)
            have hne := (Used.ne (.inl hlast) hcell).symm
            rw [if_neg hfst]
            refine ⟨hpos, hfree₀, ?_, ?_, l ++ [cluster], chain_append hl hmem hlast hcell, ?_⟩
            · simp [hne]
            · exact (hp.consistent.append hfile hl hmem hlast hcell).isFile hfile
            · simp
          · exact ⟨_, hu.trans hw, htake, .inr ⟨rfl, hfail⟩⟩
      refine hlinked.bind ?_
      rintro _ w ⟨v', hw, hp', ⟨rfl, hroom', hloop'⟩ | ⟨rfl, hfail⟩⟩
      · obtain ⟨-, -, hlast', hfile', l, hl, hmem⟩ := hloop'.resolve_left fun hzero => hpos hzero.2
        refine (hw.writeCluster hm hf _).bind ?_
        rintro _ x ⟨rfl, hx⟩
        have hset := hp'.consistent.setFile (F := fun _ => False) hfile' hl hmem
        refine ih (hp'.trans (hset _) fun _ => .inl) ?_ ?_ hx
        · exact .inr ⟨hpos, hfree₀, hlast', (hset _).isFile hfile', l, hl, hmem⟩
        · rw [room_setData]
          omega
      · exact ends_pure ⟨v', hw, hp', hfail⟩
    · exact ends_pure ⟨v, ht.trans hu, hp, hfail⟩

theorem writeFile_spec (hm : Ready m) {size : ℕ} (hvol : volume m s = v) (hv : Consistent m v)
    (hroom : u32 (size + (clusterSize m - 1)) / clusterSize m ≤ room m v) :
    Ends (writeFile m buf size) s fun r t =>
      ∃ v', Effect m s t v' s.live ∧ Progress m (fun _ => False) v v' ∧
        (r = 0 ∨ IsFile m v' r) := by
  subst hvol
  refine (allocateBuffer_spec m s).bind ?_
  rintro _ t (⟨rfl, hfail, ht⟩ | ⟨block, rfl, ht⟩)
  · exact ends_pure ⟨_, ht, .refl hv, .inl rfl⟩
  · refine (writeClusters_spec hm (.refl hv) (.inl ⟨rfl, rfl⟩) hroom ht).bind ?_
    rintro r u ⟨v', hu, hp, hr⟩
    cases r with
    | none => exact hu.ends_kfree fun w hw => ⟨v', hw, hp, .inl rfl⟩
    | some found =>
      obtain ⟨first, prev⟩ := found
      have hended : Ends (setPrev m prev clusterEoc) u fun _ w =>
          Effect m s w v' (block :: s.live) := by
        rcases hr with ⟨rfl, rfl⟩ | ⟨hprev, -, hlast, -⟩
        · exact ends_pure hu
        · rw [setPrev, if_neg hprev]
          rw [← hu.volume] at hlast
          refine (setCluster_of_last hm hlast).imp ?_
          rw [hu.volume, hu.live]
          rintro _ w ⟨hw, -⟩
          exact hu.trans hw
      refine hended.bind fun ended w hw => ?_
      refine hw.ends_kfree fun x hx => ⟨v', hx, hp, ?_⟩
      cases ended with
      | false => exact .inl rfl
      | true =>
        rcases hr with ⟨rfl, -⟩ | ⟨-, -, -, hfile, -⟩
        · exact .inl rfl
        · exact .inr hfile

variable {size offset written : ℕ}

theorem walkClusters_spec (hm : Ready m) {left : ℕ} (hk : Chain v.cells c k)
    (ht : Effect m s t v live) :
    Ends (walkClusters m left c) t fun r u =>
      Effect m s u v live ∧
        ((r = none ∧ (HeapFails m ∨ k.length ≤ left)) ∨
          ∃ e, r = some e ∧ left < k.length ∧ Chain v.cells e (k.drop left)) := by
  induction left generalizing c k t with
  | zero =>
    refine ends_pure ⟨ht, .inr ⟨c, rfl, ?_, hk⟩⟩
    exact length_pos_of_mem hk.self_mem
  | succ left ih =>
    cases hk with
    | last hlast =>
      have hcell := hlast
      rw [← ht.volume] at hcell
      refine (nextCluster_of_last hm hcell).bind ?_
      rw [ht.volume, ht.live]
      rintro r u ⟨hr, hu⟩
      have hstop : r = invalidCluster ∨ clusterEocMin ≤ r := by
        rcases hr with hr | ⟨rfl, -⟩
        · exact .inr hr
        · exact .inl rfl
      rw [if_pos hstop]
      exact ends_pure ⟨ht.trans hu, .inl ⟨rfl, .inr (by simp)⟩⟩
    | @cons _ d k hto hrest =>
      have hcell := hto
      rw [← ht.volume] at hcell
      have hd : InRange m d := ht.inRange hrest.used
      refine (nextCluster_of_next hm hcell).bind ?_
      rw [ht.volume, ht.live]
      rintro r u ⟨rfl | ⟨rfl, hfail⟩, hu⟩
      · rw [if_neg (not_or.mpr ⟨hd.ne_invalid, hm.sane.lt_eocMin hd⟩)]
        refine (ih hrest (ht.trans hu)).imp ?_
        rintro r' w ⟨hw, hr'⟩
        refine ⟨hw, hr'.imp ?_ ?_⟩
        · rintro ⟨hnone, hwhy⟩
          exact ⟨hnone, hwhy.imp_right fun hle => by rw [length_cons]; omega⟩
        · rintro ⟨e, hsome, hlt, he⟩
          exact ⟨e, hsome, by rw [length_cons]; omega, he⟩
      · rw [if_pos (.inl rfl)]
        exact ends_pure ⟨ht.trans hu, .inl ⟨rfl, .inl hfail⟩⟩

def OnChain (v : Volume) (h c : ℕ) : Prop := ∃ l, Chain v.cells h l ∧ c ∈ l

theorem Progress.onChain {F : ℕ → Prop} (hp : Progress g F v₀ v) (hv₀ : Consistent g v₀)
    (hh : Used v₀.cells h) (hc : OnChain v h c) : OnChain v₀ h c ∨ v₀.cells c = .free := by
  obtain ⟨l, hl, hmem⟩ := hc
  obtain ⟨l₀, hl₀⟩ := hv₀.cells.ends h hh
  obtain ⟨fresh, hchain, hfree⟩ := hp.grown.chain_append hp.consistent.cells hl₀
  rw [hl.unique hchain, mem_append] at hmem
  exact hmem.imp (fun hold => ⟨l₀, hl₀, hold⟩) (hfree c)

/-- The loop of `fat32_write_file_at_offset` is at a cluster of the file `h`, with enough clusters
behind it, or free, for what is left. -/
structure Extending (m : Mount) (v₀ v : Volume) (h size : ℕ) (c offset written : ℕ) : Prop where
  progress : Progress m (OnChain v₀ h) v₀ v
  file : IsFile m v h
  cluster : OnChain v h c
  inside : offset < clusterSize m
  space : ∃ k, Chain v.cells c k ∧
    offset + (size - written) ≤ (k.length + room m v) * clusterSize m

theorem Extending.setData
    (hx : Extending m v₀ v h size c offset written) (buf : Memory) :
    Extending m v₀ (v.setData c buf) h size c offset written := by
  obtain ⟨l, hl, hmem⟩ := hx.cluster
  have hset : Progress m (fun _ => False) v (v.setData c buf) :=
    hx.progress.consistent.setFile hx.file hl hmem buf
  exact ⟨hx.progress.trans hset fun _ => False.elim, hset.isFile hx.file, hx.cluster, hx.inside,
    hx.space⟩

theorem Extending.next (hm : Ready m)
    (hx : Extending m v₀ v h size c offset written) (hcell : v.cells c = .next d)
    (hmore : written + (clusterSize m - offset) < size) :
    Extending m v₀ v h size d 0 (written + (clusterSize m - offset)) := by
  obtain ⟨l, hl, hmem⟩ := hx.cluster
  obtain ⟨k, hk, hspace⟩ := hx.space
  refine ⟨hx.progress, hx.file, ⟨l, hl, hl.next_mem hmem hcell⟩, hm.sane.clusterSize_pos, ?_⟩
  cases hk with
  | last hlast => simp [hlast] at hcell
  | @cons _ e k hto hrest =>
    obtain rfl : e = d := Cell.next.inj (hto.symm.trans hcell)
    refine ⟨k, hrest, ?_⟩
    rw [length_cons, add_right_comm, Nat.succ_mul] at hspace
    omega

theorem Extending.append (hm : Ready m) (hv₀ : Consistent m v₀)
    (hh : Used v₀.cells h) (hx : Extending m v₀ v h size c offset written)
    (hlast : v.cells c = .last) (hfree : nextFree m v = some f)
    (hmore : written + (clusterSize m - offset) < size) :
    Extending m v₀ (v.append c f) h size f 0 (written + (clusterSize m - offset)) := by
  obtain ⟨l, hl, hmem⟩ := hx.cluster
  obtain ⟨k, hk, hspace⟩ := hx.space
  have hcell := free_of_nextFree hfree
  have happend := hx.progress.consistent.append hx.file hl hmem hlast hcell
  refine ⟨hx.progress.trans happend ?_, happend.isFile hx.file,
    ⟨l ++ [f], chain_append hl hmem hlast hcell, by simp⟩, hm.sane.clusterSize_pos, [f], ?_, ?_⟩
  · rintro _ rfl
    exact hx.progress.onChain hv₀ hh hx.cluster
  · refine .last ?_
    have hne := (Used.ne (.inl hlast) hcell).symm
    simp [Volume.append, hne]
  · have hroom := room_append hfree hlast
    rw [hk.unique (.last hlast), length_singleton, ← hroom, add_comm 1, Nat.succ_mul]
      at hspace
    rw [length_singleton, add_comm 1]
    omega

def Volume.stage (g : Geometry) (v : Volume) (buf : Memory) (size c offset written : ℕ) : Volume :=
  v.setData c (clip g ((v.data c).splice offset (buf.drop written)
    (min (size - written) (clusterSize g - offset))))

/-- What a pass of `fat32_write_file_at_offset` does, with its result. -/
inductive Passed (m : Mount) (v : Volume) (buf : Memory) (size c offset written : ℕ) :
    (ℕ × ℕ × ℕ) ⊕ Bool → Volume → Prop
  | done : size ≤ written + min (size - written) (clusterSize m - offset) →
      Passed m v buf size c offset written (.inr true)
        (v.stage m buf size c offset written)
  | next {d : ℕ} : written + (clusterSize m - offset) < size → v.cells c = .next d →
      Passed m v buf size c offset written
        (.inl (d, 0, written + (clusterSize m - offset)))
        (v.stage m buf size c offset written)
  | linked {f : ℕ} : written + (clusterSize m - offset) < size → v.cells c = .last →
      nextFree m v = some f →
      Passed m v buf size c offset written
        (.inl (f, 0, written + (clusterSize m - offset)))
        ((v.stage m buf size c offset written).append c f)
  | failed {v' : Volume} : HeapFails m →
      written + (clusterSize m - offset) < size →
      (v' = v.stage m buf size c offset written ∨
        ∃ f, v.cells c = .last ∧ nextFree m v = some f ∧
          (v' = (v.stage m buf size c offset written).take f ∨
            v' = (v.stage m buf size c offset written).append c f)) →
      Passed m v buf size c offset written (.inr false) v'

theorem writePass_spec (hm : Ready m) {block : ℕ} (hused : Used v.cells c)
    (hroom : v.cells c = .last → written + (clusterSize m - offset) < size → 0 < room m v)
    (ht : Effect m s t v (block :: live)) :
    Ends (writePass m block buf size (c, offset, written)) t fun r u =>
      ∃ v', Passed m v buf size c offset written r v' ∧
        Effect m s u v' (if r = .inr true then live else block :: live) ∧
        ∀ k, c ∈ k → (∀ b, r = .inl b → b.1 ∈ k) → HeapFails m ∨ EntriesKept m k t u := by
  have hc : InRange m c := ht.inRange hused
  unfold writePass
  refine ((ht.readCluster hm hc).and (reads_readCluster m c t)).bind ?_
  rintro _ u ⟨⟨rfl, hu⟩, hdisk⟩
  refine ((hu.writeCluster hm hc _).and (writeCluster_entries hm hc _ u)).bind ?_
  rintro _ w ⟨⟨rfl, hw⟩, hkept⟩
  replace hkept := hkept.of_disks hdisk rfl
  replace hw : Effect m s w (v.stage m buf size c offset written) (block :: live) := hw
  rw [if_pos rfl]
  by_cases hdone : size ≤ written + min (size - written) (clusterSize m - offset)
  · rw [if_pos hdone]
    refine (hw.kfree.and (reads_kfree block w)).bind ?_
    rintro _ x ⟨hx, hfreed⟩
    refine ends_pure ⟨_, .done hdone, ?_, fun k _ _ => .inr ?_⟩
    · rw [if_pos rfl]
      exact hx
    · exact hkept.trans (.of_disk hfreed) (nil_subset k) (nil_subset k)
  · rw [if_neg hdone]
    have hmin : min (size - written) (clusterSize m - offset) = clusterSize m - offset := by omega
    have hmore : written + (clusterSize m - offset) < size := by omega
    simp only [hmin]
    rcases hused with hlast | ⟨d, hto⟩
    · obtain ⟨f, hfree⟩ := exists_nextFree (hroom hlast hmore)
      have hf : InRange m f := ht.inRange_of_nextFree hfree
      have hpos := hf.ne_invalid
      have hlast' : (volume m w).cells c = .last := by rw [hw.volume]; exact hlast
      have hfree' : nextFree m (volume m w) = some f := by
        rw [hw.volume]
        exact hfree
      refine (linkClusterChain_of_last hm hlast' hfree').bind ?_
      rw [hw.volume, hw.live]
      rintro next x (⟨rfl, hy, hlinked⟩ | ⟨rfl, hfail, v', hy, hv'⟩)
      · rw [if_neg hpos]
        refine ends_pure ⟨_, .linked hmore hlast hfree, hw.trans hy, fun k hck hnext => .inr ?_⟩
        exact hkept.trans hlinked (nil_subset k) (by simp [hck, hnext _ rfl])
      · refine ends_pure ⟨v', .failed hfail hmore ?_, hw.trans hy, fun _ _ _ => .inl hfail⟩
        exact hv'.imp_right fun hv' => ⟨f, hlast, hfree, hv'⟩
    · have hd : InRange m d := by
        have hto' := hto
        rw [← ht.volume] at hto'
        exact inRange_of_next hto'
      have hpos := hd.ne_invalid
      have hto' : (volume m w).cells c = .next d := by rw [hw.volume]; exact hto
      refine (linkClusterChain_of_next hm hto').bind ?_
      rw [hw.volume, hw.live]
      rintro next x ⟨rfl | ⟨rfl, hfail⟩, hy, hread⟩
      · rw [if_neg hpos]
        refine ends_pure ⟨_, .next hmore hto, hw.trans hy, fun k _ _ => .inr ?_⟩
        exact hkept.trans (.of_disk hread) (nil_subset k) (nil_subset k)
      · exact ends_pure ⟨_, .failed hfail hmore (.inl rfl), hw.trans hy, fun _ _ _ => .inl hfail⟩

theorem Extending.room_pos
    (hx : Extending m v₀ v h size c offset written) (hlast : v.cells c = .last)
    (hmore : written + (clusterSize m - offset) < size) : 0 < room m v := by
  obtain ⟨k, hk, hspace⟩ := hx.space
  by_contra hzero
  rw [hk.unique (.last hlast), Nat.eq_zero_of_not_pos hzero, length_singleton,
    Nat.one_mul] at hspace
  omega

theorem Extending.passed (hm : Ready m) (hv₀ : Consistent m v₀) (hh : Used v₀.cells h)
    {r : (ℕ × ℕ × ℕ) ⊕ Bool} {v' : Volume}
    (hx : Extending m v₀ v h size c offset written)
    (hpassed : Passed m v buf size c offset written r v') :
    (∃ c' offset' written', r = .inl (c', offset', written') ∧ size - written' < size - written ∧
      Extending m v₀ v' h size c' offset' written') ∨
    ∃ ok, r = .inr ok ∧ (ok = true ∨ HeapFails m) ∧ Progress m (OnChain v₀ h) v₀ v' := by
  have hinside := hx.inside
  have hstage : Extending m v₀ (v.stage m buf size c offset written) h size c offset
      written := hx.setData _
  cases hpassed with
  | done _ => exact .inr ⟨true, rfl, .inl rfl, hstage.progress⟩
  | next hmore hto => exact .inl ⟨_, _, _, rfl, by omega, hstage.next hm hto hmore⟩
  | linked hmore hlast hfree =>
    exact .inl ⟨_, _, _, rfl, by omega, hstage.append hm hv₀ hh hlast hfree hmore⟩
  | failed hfail hmore hv' =>
    refine .inr ⟨false, rfl, .inr hfail, ?_⟩
    rcases hv' with rfl | ⟨f, hlast, hfree, rfl | rfl⟩
    · exact hstage.progress
    · have hcell := free_of_nextFree hfree
      exact hstage.progress.trans (hstage.progress.consistent.take hcell) fun _ => .inl
    · exact (hstage.append hm hv₀ hh hlast hfree hmore).progress

/-- How `fat32_write_file_at_offset` ends: it succeeds, or the heap fails and its buffer is lost. -/
def Extended (m : Mount) (s : State) (v₀ : Volume) (h block : ℕ) (live : List ℕ) (ok : Bool)
    (u : State) : Prop :=
  ∃ v', Progress m (OnChain v₀ h) v₀ v' ∧
    ((ok = true ∧ Effect m s u v' live) ∨
      (ok = false ∧ HeapFails m ∧ Effect m s u v' (block :: live)))

theorem writeFileAtOffset_spec (hm : Ready m) {fuel : ℕ}
    (hvol : volume m s = v) (hv : Consistent m v) (hfile : IsFile m v h) (hl : Chain v.cells h l)
    (hspace : offset + size ≤ (l.length + room m v) * clusterSize m) (hfuel : size < fuel) :
    Ends (writeFileAtOffset m fuel h offset buf size) s fun r t =>
      ∃ v' live, Effect m s t v' live ∧
        Progress m (OnChain v h) v v' ∧
        (live = s.live ∨ (r = false ∧ HeapFails m ∧ ∃ block, live = block :: s.live)) ∧
        (r = true ∨ HeapFails m ∨ l.length ≤ offset / clusterSize m) := by
  subst hvol
  refine (walkClusters_spec hm hl (.refl _ s)).bind ?_
  rintro r t ⟨ht, ⟨rfl, hwhy⟩ | ⟨c, rfl, hlt, hk⟩⟩
  · exact ends_pure ⟨_, _, ht, .refl hv, .inl rfl, .inr hwhy⟩
  · refine (allocateBuffer_spec m t).bind ?_
    rw [ht.volume, ht.live]
    rintro _ u (⟨rfl, hfail, hu⟩ | ⟨block, rfl, hu⟩)
    · exact ends_pure ⟨_, _, ht.trans hu, .refl hv, .inl rfl, .inr (.inl hfail)⟩
    · replace hu := ht.trans hu
      have hstart : Extending m (volume m s) (volume m s) h size c (offset % clusterSize m) 0 := by
        refine ⟨.refl hv, hfile, ⟨l, hl, mem_of_mem_drop hk.self_mem⟩,
          Nat.mod_lt _ hm.sane.clusterSize_pos, _, hk, ?_⟩
        obtain ⟨k, hk⟩ := Nat.exists_eq_add_of_lt hlt
        rw [length_drop, hk]
        rw [hk] at hspace
        have hsplit := Nat.div_add_mod' offset (clusterSize m)
        generalize offset / clusterSize m = q at *
        rw [show q + k + 1 + room m (volume m s) =
          q + (q + k + 1 - q + room m (volume m s)) by omega,
          add_mul] at hspace
        omega
      let inv : ℕ → ℕ × ℕ × ℕ → State → Prop := fun n b w => n = size - b.2.2 ∧
        ∃ v', Effect m s w v' (block :: s.live) ∧ Extending m (volume m s) v' h size b.1 b.2.1 b.2.2
      -- each pass writes something
      have hbody : ∀ n b w, inv n b w → Ends (writePass m block buf size b) w fun r x =>
          (∃ next k, r = .inl next ∧ k < n ∧ inv k next x) ∨
            ∃ ok, r = .inr ok ∧ Extended m s (volume m s) h block s.live ok x := by
        rintro n ⟨c', offset', written⟩ w ⟨rfl, v', hw, hx⟩
        obtain ⟨l', hl', hmem⟩ := hx.cluster
        refine (writePass_spec hm (hl'.used_of_mem hmem) hx.room_pos hw).imp ?_
        rintro r x ⟨v'', hpassed, hx', -⟩
        rcases hx.passed hm hv hfile.head.used hpassed with
          ⟨c'', offset'', written', rfl, hless, hnext⟩ | ⟨ok, rfl, hok, hp⟩
        · rw [if_neg (by simp)] at hx'
          exact .inl ⟨_, _, rfl, hless, rfl, v'', hx', hnext⟩
        · refine .inr ⟨ok, rfl, v'', hp, ?_⟩
          cases ok with
          | true => exact .inl ⟨rfl, hx'⟩
          | false => exact .inr ⟨rfl, hok.resolve_left Bool.false_ne_true, hx'⟩
      have hinv : inv size (c, offset % clusterSize m, 0) u := ⟨rfl, _, hu, hstart⟩
      refine (ends_iterate inv hbody hinv hfuel).imp ?_
      rintro r w ⟨v', hp, ⟨rfl, hw⟩ | ⟨rfl, hfail, hw⟩⟩
      · exact ⟨v', _, hw, hp, .inl rfl, .inl rfl⟩
      · exact ⟨v', _, hw, hp, .inr ⟨rfl, hfail, block, rfl⟩, .inr (.inl hfail)⟩

end Taavi.Fat
