import Taavi.Fat.Writing

/-!
# Working on some clusters

What the parts of an operation keep when it works on some clusters only, whatever the heap does: the
copies of the table and the bytes of all other clusters.
-/

namespace Taavi.Fat

open Lib

variable {m : Mount} {g : Geometry} {s t u : State} {v : Volume} {live : List ℕ} {K : ℕ → Prop}
  {c d n k : ℕ} {α : Type}

/-- There are free clusters for `n` allocations, or no free entry is behind the last cluster. -/
def Supply (g : Geometry) (s : State) (n : ℕ) : Prop :=
  n ≤ room g (volume g s) ∨
    ∀ c, g.maximumClusterSize ≤ c → c < entriesPerSector * g.sectorsPerFat →
      fatEntry g s c ≠ clusterFree

/-- A cluster that an operation may write: one of `K`, or one that was free and is in use now. -/
def Writable (g : Geometry) (K : ℕ → Prop) (s t : State) (c : ℕ) : Prop :=
  K c ∨ ((volume g s).cells c = .free ∧ (volume g t).cells c ≠ .free)

theorem Writable.mono (h : Writable g K s t c)
    (hfree : (volume g u).cells c = .free → (volume g t).cells c = .free) : Writable g K s u c :=
  h.imp_right fun hc => ⟨hc.1, mt hfree hc.2⟩

theorem Writable.same (h : Writable g K s t c) (hvol : volume g u = volume g t) :
    Writable g K s u c :=
  h.mono fun hc => hvol ▸ hc

/-- From a state to another one by changes to the clusters `K` and to new ones, with some
allocations left. No cluster becomes free. -/
structure Working (g : Geometry) (K : ℕ → Prop) (s : State) (n : ℕ) (t : State) : Prop where
  beside : Beside g s t
  data : ∀ c, ¬Writable g K s t c → (volume g t).data c = (volume g s).data c
  used : ∀ c, (volume g t).cells c = .free → (volume g s).cells c = .free
  supply : Supply g t n

theorem Working.refl (hsupply : Supply g s n) : Working g K s n s :=
  ⟨.of_disk rfl, fun _ _ => rfl, fun _ => id, hsupply⟩

theorem Working.step (ht : Working g K s n t) (hu : Effect g t u v live)
    (hdata : ∀ c, ¬Writable g K s t c → v.data c = (volume g t).data c)
    (hfree : ∀ c, v.cells c = .free → (volume g t).cells c = .free)
    (hroom : room g (volume g t) + k ≤ room g v + n) : Working g K s k u := by
  have hvol := hu.volume
  refine ⟨ht.beside.trans hu.beside, fun c hc => ?_, fun c hc => ?_, ?_⟩
  · have hnot : ¬Writable g K s t c := fun h => hc (h.mono fun hu => hfree c (hvol ▸ hu))
    rw [hvol, hdata c hnot]
    exact ht.data c hnot
  · rw [hvol] at hc
    exact ht.used c (hfree c hc)
  · rcases ht.supply with hsupply | hspare
    · left
      rw [hvol]
      omega
    · refine .inr fun c hhigh hlt => ?_
      rw [hu.beside.spare c hhigh hlt]
      exact hspare c hhigh hlt

theorem Working.same (ht : Working g K s n t) (hu : Effect g t u (volume g t) live) :
    Working g K s n u :=
  ht.step hu (fun _ _ => rfl) (fun _ => id) le_rfl

theorem Working.mono (ht : Working g K s n t) (hle : k ≤ n) : Working g K s k t :=
  ht.step (.refl g t) (fun _ _ => rfl) (fun _ => id) (Nat.add_le_add_left hle _)

theorem nextFree_eq_none : nextFree g v = none ↔
    ∀ c, v.hint ≤ c → c < g.maximumClusterSize → v.cells c ≠ .free := by
  simp only [nextFree, firstFrom_eq_none, decide_eq_false_iff_not, ne_eq]

theorem allocSectors_of_full (hm : Ready m) {block : ℕ} (hnone : nextFree m v = none)
    (hspare : ∀ c, m.maximumClusterSize ≤ c → c < entriesPerSector * m.sectorsPerFat →
      fatEntry m t c ≠ clusterFree)
    (ht : Effect m s t v (block :: live)) :
    Ends (allocSectors m block (v.hint / entriesPerSector) (v.hint % entriesPerSector)
        (m.sectorsPerFat - v.hint / entriesPerSector) (v.hint / entriesPerSector)) t
      fun r u => r = invalidCluster ∧ Effect m s u v live := by
  have hdisk := hm.sane.disk
  have hdata := hm.sane.data
  refine .of_run_eq (allocSectors_skip (m.sectorsPerFat - v.hint / entriesPerSector) 0
    (fun k _ => hm.disk _) fun k hk => ?_) ?_
  · refine freeEntry_eq_none (by omega) (Nat.le_add_right ..) fun e hge hlow hsec hzero => ?_
    by_cases hlt : e < m.maximumClusterSize
    · refine nextFree_eq_none.mp hnone e hge hlt ?_
      rw [← ht.volume, cells_eq ⟨hlow, hlt⟩, hzero]
      rfl
    · refine hspare e (Nat.le_of_not_lt hlt) ?_ hzero
      rw [entriesPerSector_eq] at hk hsec ⊢
      omega
  · have ht' : Effect m s { t with accesses := t.accesses +
        (m.sectorsPerFat - v.hint / entriesPerSector) } v (block :: live) :=
      { ht with beside := ht.beside.trans (.of_disk rfl) }
    exact ht'.ends_kfree fun u hu => ⟨rfl, hu⟩

theorem allocCluster_of_full (hm : Ready m) (hnone : nextFree m (volume m s) = none)
    (hspare : ∀ c, m.maximumClusterSize ≤ c → c < entriesPerSector * m.sectorsPerFat →
      fatEntry m s c ≠ clusterFree) :
    Ends (allocCluster m) s fun r t => r = invalidCluster ∧ Effect m s t (volume m s) s.live := by
  refine (allocateBuffer_spec m s).bind ?_
  rintro r t (⟨rfl, -, ht⟩ | ⟨block, rfl, ht⟩)
  · exact ends_pure ⟨rfl, ht⟩
  · refine (ends_get t).bind ?_
    rintro x y ⟨hx, hy⟩
    subst hx hy
    have hsame : y.lastAllocatedCluster = (volume m s).hint := by
      rw [← ht.volume]
      rfl
    simp only [hsame]
    refine allocSectors_of_full hm hnone (fun c hhigh hlt => ?_) ht
    rw [ht.beside.spare c hhigh hlt]
    exact hspare c hhigh hlt

theorem returns_kfree (block : ℕ) (s : State) : Returns (kfree block) s fun _ t =>
    Effect g s t (volume g s) t.live := by
  intro a t hrun
  unfold kfree at hrun
  split_ifs at hrun
  obtain ⟨-, rfl⟩ := Prod.mk.inj (Option.some.inj hrun)
  exact .of_eq rfl rfl rfl

theorem Working.returns_kfree {block : ℕ} {a : α} {post : α → State → Prop} (ht : Working g K s n t)
    (hpost : ∀ u, Working g K s n u → post a u) : Returns (do kfree block; pure a) t post :=
  (Fat.returns_kfree (g := g) block t).bind fun _ u hu => returns_pure (hpost u (ht.same hu))

theorem Working.stop {block : ℕ} {a : α} (ht : Working g K s n t) :
    Returns (do kfree block; pure a) t fun _ u => Working g K s 0 u :=
  ht.returns_kfree fun _ hu => hu.mono (Nat.zero_le n)

theorem Working.start : Working g K s 0 s := .refl (.inl (Nat.zero_le _))

variable (hm : Ready m)
include hm

theorem Working.allocCluster (ht : Working m K s (n + 1) t) :
    Ends (allocCluster m) t fun r u => Working m K s n u ∧
      ((r = invalidCluster ∧ volume m u = volume m t) ∨
        (Writable m K s u r ∧ InRange m r ∧ (volume m t).cells r = .free ∧
          volume m u = (volume m t).take r)) := by
  cases hnext : nextFree m (volume m t) with
  | some f =>
    have hcell := free_of_nextFree hnext
    have hf : InRange m f := (Effect.refl m t).inRange_of_nextFree hnext
    refine (allocCluster_spec hm hnext).imp ?_
    rintro r u (⟨rfl, hu, -⟩ | ⟨rfl, -, hu⟩)
    · have hroom := room_take hnext
      refine ⟨ht.step hu (fun _ _ => rfl) (fun c hc => ?_) (by omega),
        .inr ⟨.inr ⟨ht.used r hcell, by simp [hu.volume]⟩, hf, hcell, hu.volume⟩⟩
      by_cases hcr : c = r
      · simp [hcr] at hc
      · rwa [Volume.take_cells, Function.update_of_ne hcr] at hc
    · exact ⟨(ht.same hu).mono (Nat.le_succ n), .inl ⟨rfl, hu.volume⟩⟩
  | none =>
    have hspare := ht.supply.resolve_left fun hle => by
      obtain ⟨f, hf⟩ := exists_nextFree (g := m) (v := volume m t) (by omega)
      simp [hf] at hnext
    refine (allocCluster_of_full hm hnext hspare).imp ?_
    rintro r u ⟨rfl, hu⟩
    exact ⟨(ht.same hu).mono (Nat.le_succ n), .inl ⟨rfl, hu.volume⟩⟩

theorem Working.setCluster (ht : Working m K s n t) (hc : InRange m c)
    (hcell : (volume m t).cells c ≠ .free) {value : ℕ} (hvalue : value < 2 ^ 28)
    (hpos : value ≠ 0) :
    Ends (setCluster m c value) t fun r u => Working m K s n u ∧
      ((r = true ∧ volume m u =
          (volume m t).setCell c (cellOf m value)) ∨
        (r = false ∧ volume m u = volume m t)) := by
  refine (setCluster_spec hm hc hvalue t).imp ?_
  rintro r u (⟨rfl, hu, -⟩ | ⟨rfl, -, hu⟩)
  · have hsame : ∀ d, ((volume m t).setCell c (cellOf m value)).cells d =
        .free ↔ (volume m t).cells d = .free := by
      intro d
      by_cases hdc : d = c
      · simp [hdc, hcell, cellOf_eq_free, hpos]
      · simp [hdc]
    have hroom : room m ((volume m t).setCell c (cellOf m value)) =
          room m (volume m t) := room_congr rfl hsame
    exact ⟨ht.step hu (fun _ _ => rfl) (fun d => (hsame d).mp) (by omega),
      .inl ⟨rfl, hu.volume⟩⟩
  · exact ⟨ht.same hu, .inr ⟨rfl, hu.volume⟩⟩

theorem Working.writeCluster (ht : Working m K s n t) (hK : Writable m K s t c)
    (hc : InRange m c) (buf : Memory) :
    Ends (writeCluster m c buf) t fun r u => r = true ∧ Working m K s n u ∧
      volume m u = (volume m t).setData c (clip m buf) := by
  refine (writeCluster_spec hm hc buf t).imp ?_
  rintro r u ⟨rfl, hu⟩
  refine ⟨rfl, ht.step hu (fun d hd => ?_) (fun _ => id) ?_, hu.volume⟩
  · have hdc : d ≠ c := by
      rintro rfl
      exact hd hK
    rw [Volume.setData_data, Function.update_of_ne hdc]
  · rw [room_setData]

theorem Working.linkClusterChain (ht : Working m K s n t) (hcell : (volume m t).cells c ≠ .broken)
    (hn : (volume m t).cells c = .last → 0 < n) :
    Ends (linkClusterChain m c) t fun r u =>
      (r = invalidCluster ∧ Working m K s 0 u) ∨
      ((volume m t).cells c = .next r ∧ Working m K s n u ∧ volume m u = volume m t) ∨
      ((volume m t).cells c = .last ∧ Writable m K s u r ∧ InRange m r ∧
        (volume m t).cells r = .free ∧ Working m K s (n - 1) u ∧
        volume m u = (volume m t).append c r) := by
  have hc : InRange m c := inRange_of_cells hcell
  refine (nextCluster_spec hm hc t).bind ?_
  rintro next u ⟨hnext, hu⟩
  have hvol := hu.volume
  replace hu := ht.same hu
  have hzero : next = 0 → Ends (if clusterEocMin ≤ next then (do
      let next ← Fat.allocCluster m
      if next = invalidCluster then pure invalidCluster
      else if ← Fat.setCluster m c next then
        if ← Fat.setCluster m next clusterEoc then pure next
        else pure invalidCluster
      else pure invalidCluster) else pure next) u fun r u =>
        r = invalidCluster ∧ Working m K s 0 u := by
    rintro rfl
    rw [if_neg (by decide)]
    exact ends_pure ⟨rfl, hu.mono (Nat.zero_le n)⟩
  rcases hnext with hnext | ⟨hnone, -⟩
  · cases hcells : (volume m t).cells c with
    | broken => exact absurd hcells hcell
    | free =>
      rw [hcells, cellOf_eq_free] at hnext
      exact (hzero hnext).imp fun r w hw => .inl hw
    | next d =>
      rw [hcells] at hnext
      obtain ⟨rfl, hd⟩ := cellOf_eq_next hnext
      rw [if_neg (hm.sane.lt_eocMin hd)]
      exact ends_pure (.inr (.inl ⟨rfl, hu, hvol⟩))
    | last =>
      rw [hcells, cellOf_eq_last] at hnext
      rw [if_pos hnext]
      obtain ⟨k, rfl⟩ := Nat.exists_eq_add_of_lt (hn hcells)
      rw [zero_add] at hu ⊢
      refine (hu.allocCluster hm).bind ?_
      rintro f w ⟨hw, ⟨rfl, -⟩ | ⟨hKf, hf, hfree, hvol'⟩⟩
      · exact ends_pure (.inl ⟨rfl, hw.mono (Nat.zero_le k)⟩)
      · rw [hvol] at hfree hvol'
        have hpos := hf.ne_invalid
        have hne := (Used.ne (.inl hcells) hfree).symm
        have hsmall := hm.sane.lt_of_inRange hf
        rw [if_neg hpos]
        refine (hw.setCluster hm hc (by simp [hvol', hne.symm, hcells]) hsmall hpos).bind ?_
        rw [hvol', hm.sane.cellOf_inRange hf]
        rintro _ x ⟨hx, ⟨rfl, hvol''⟩ | ⟨rfl, -⟩⟩
        · rw [if_pos rfl]
          refine (hx.setCluster hm hf (by simp [hvol'', hne]) (by decide : clusterEoc < 2 ^ 28)
            (by decide)).bind ?_
          rintro _ y ⟨hy, ⟨rfl, hlast⟩ | ⟨rfl, -⟩⟩
          · refine ends_pure (.inr (.inr ⟨rfl, .inr ⟨ht.used f hfree, by
              simp [hlast, cellOf_clusterEoc]⟩, hf, hfree, hy, ?_⟩))
            rw [hlast, hvol'', cellOf_clusterEoc]
            refine Volume.ext ?_ rfl rfl
            refine Function.update_eq_self_iff.mpr ?_
            simp [hne]
          · exact ends_pure (.inl ⟨rfl, hy.mono (Nat.zero_le k)⟩)
        · exact ends_pure (.inl ⟨rfl, hx.mono (Nat.zero_le k)⟩)
  · exact (hzero hnone).imp fun r w hw => .inl hw

theorem Working.addEntry (ht : Working m K s (n + 1) t) (hK : Writable m K s t d)
    (hd : InRange m d) (buf : Memory) (i : ℕ) (name83 : List UInt8) (attr : UInt8) :
    Ends (addEntry m d buf i name83 attr) t fun r u => Working m K s n u ∧
      ∀ f, r = some f → Writable m K s u f ∧ InRange m f ∧ (volume m u).data f = fun _ => 0 := by
  refine (ht.allocCluster hm).bind ?_
  rintro f u ⟨hu, ⟨rfl, -⟩ | ⟨hKf, hf, -, hvol⟩⟩
  · exact ends_pure ⟨hu, by simp⟩
  · have hpos := hf.ne_invalid
    rw [if_neg hpos]
    refine (hu.setCluster hm hf (by simp [hvol]) (by decide : clusterEoc < 2 ^ 28)
      (by decide)).bind ?_
    rintro _ w ⟨hw, ⟨rfl, hended⟩ | ⟨rfl, -⟩⟩
    · have hfree : ∀ c, (volume m w).cells c = .free → (volume m t).cells c = .free := by
        intro c hc
        rw [hended, hvol, cellOf_clusterEoc] at hc
        by_cases hcf : c = f
        · simp [hcf] at hc
        · simpa [hcf] using hc
      have hKf' : Writable m K s w f := hKf.mono fun hc => by simp [hended, cellOf_clusterEoc] at hc
      rw [if_pos rfl]
      refine (hw.writeCluster hm (hK.mono (hfree d)) hd _).bind ?_
      rintro _ x ⟨rfl, hx, hvol₁⟩
      rw [if_pos rfl]
      have hKf₁ : Writable m K s x f := hKf'.mono fun hc => by simpa [hvol₁] using hc
      refine (hx.writeCluster hm hKf₁ hf _).bind ?_
      rintro _ y ⟨rfl, hy, hdata⟩
      rw [if_pos rfl]
      refine ends_pure ⟨hy, ?_⟩
      rintro _ ⟨rfl⟩
      refine ⟨hKf₁.mono fun hc => by simpa [hdata] using hc, hf, ?_⟩
      rw [hdata, Volume.setData_data, Function.update_self]
      exact funext fun x => ite_self _
    · exact ends_pure ⟨hw, by simp⟩

end Taavi.Fat
