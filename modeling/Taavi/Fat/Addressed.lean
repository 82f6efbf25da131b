import Taavi.Fat.System
import Taavi.Fat.Working

/-!
# The clusters that an operation addresses

The clusters that an operation works on: those of its chain, of the directories on its path, and
those it allocates. Where all of them are in the volume, it changes no other cluster, whatever the
heap does.
-/

namespace Taavi.Fat

open Lib Relation

variable {m : Mount} {g : Geometry} {s t u : State} {v : Volume} {K : ℕ → Prop}
  {c d i n h : ℕ} {path rest name83 : List UInt8} {buf : Memory}

/-- The clusters from `a` on, as far as the entries of the table lead. -/
def Leads (v : Volume) : ℕ → ℕ → Prop := ReflTransGen fun a b => v.cells a = .next b

/-- A pass of `fat32_mkdirp` that creates nothing: into the directory of the first segment, or to
the next cluster of a full directory. -/
inductive Visit (g : Geometry) (v : Volume) : ℕ × List UInt8 → ℕ × List UInt8 → Prop
  | found {d i : ℕ} {path name83 rest : List UInt8} : walkDirPath path = some (name83, rest) →
      namedSlot g v d name83 = some i → Visit g v (d, path) ((slot v d i).cluster, rest)
  | full {d e : ℕ} {path name83 rest : List UInt8} : walkDirPath path = some (name83, rest) →
      namedSlot g v d name83 = none → unusedSlot g v d = none → v.cells d = .next e →
      Visit g v (d, path) (e, rest)

/-- `fat32_mkdirp` comes to the directory with the path. -/
def Visits (g : Geometry) (v : Volume) (parent : ℕ) (path : List UInt8) (d : ℕ)
    (rest : List UInt8) : Prop :=
  ReflTransGen (Visit g v) (parent, path) (d, rest)

/-- What `fat32_mkdirp` needs where it comes to a directory `d` for a segment. -/
structure Passable (g : Geometry) (s : State) (d : ℕ) (path name83 rest : List UInt8) : Prop where
  inRange : d < 2 ∨ InRange g d
  supply : namedSlot g (volume g s) d name83 = none → ∀ i, unusedSlot g (volume g s) d = some i →
    ∀ n, Segments path n → Supply g s n
  link : namedSlot g (volume g s) d name83 = none → unusedSlot g (volume g s) d = none →
    (volume g s).cells d ≠ .broken
  last : namedSlot g (volume g s) d name83 = none → unusedSlot g (volume g s) d = none →
    (volume g s).cells d = .last → walkDirPath rest = none ∧ Supply g s 1

/-- The clusters that an operation is given or reaches. -/
def Op.Reaches (g : Geometry) (v : Volume) : Op → ℕ → Prop
  | .createDirent directory _ _, c => c = directory
  | .mkdirp parent path, c => ∃ rest, Visits g v parent path c rest ∧ walkDirPath rest ≠ none
  | .writeFile _ _, _ => False
  | .writeFileAtOffset first _ _ _, c => Leads v first c
  | .updateDirentSize start _ _, c => Leads v (if start = 0 then g.rootCluster else start) c
  | .deleteDirent target parent, c => Leads v target c ∨ c = parent

/-- The clusters that an operation from a state to another addresses: those it reaches, and those
that were free before and are in use after it. -/
def Op.Addresses (g : Geometry) (s t : State) (op : Op) : ℕ → Prop :=
  Writable g (op.Reaches g (volume g s)) s t

/-- The operation stays on clusters of the volume, and there is supply for its allocations. -/
def Op.Bounded (g : Geometry) (s : State) : Op → Prop
  | .createDirent directory _ _ => (directory < 2 ∨ InRange g directory) ∧ Supply g s 1
  | .mkdirp parent path => ∀ d rest name83 rest', Visits g (volume g s) parent path d rest →
    walkDirPath rest = some (name83, rest') → Passable g s d rest name83 rest'
  | .writeFile _ size => Supply g s (u32 (size + (clusterSize g - 1)) / clusterSize g)
  | .writeFileAtOffset first offset _ size =>
    (∀ c, Leads (volume g s) first c → (volume g s).cells c ≠ .broken) ∧
      ∃ n, Supply g s n ∧ ∀ l, Chain (volume g s).cells first l →
        offset + size ≤ (l.length + n) * clusterSize g
  | .updateDirentSize start _ _ =>
    ∀ c, Leads (volume g s) (if start = 0 then g.rootCluster else start) c →
      (volume g s).cells c ≠ .broken
  | .deleteDirent target parent =>
    (∀ c, Leads (volume g s) target c → (volume g s).cells c ≠ .broken) ∧
      (parent < 2 ∨ InRange g parent)

theorem readCluster_of_lt (hc : c < 2) : readCluster m c = pure none := by
  unfold readCluster clusterToSector
  simp only [hc, if_true]

theorem returns_readCluster (c : ℕ) (s : State) : Returns (readCluster m c) s fun _ t =>
    Effect g s t (volume g s) t.live := by
  refine (readCluster_outcome m c s).returns.imp fun _ t h => ?_
  rw [h.1.2.2.1]
  exact h.1.effect

theorem Working.readCluster (hm : Ready m) (ht : Working m K s n t) (hc : c < 2 ∨ InRange m c) :
    Returns (readCluster m c) t fun r u => Working m K s n u ∧
      volume m u = volume m t ∧
      (r = none ∨ (InRange m c ∧ r = some ((volume m t).data c))) := by
  rcases hc with hc | hc
  · rw [readCluster_of_lt hc]
    exact returns_pure ⟨ht, rfl, .inl rfl⟩
  · refine (readCluster_spec hm hc t).returns.imp ?_
    rintro r u ⟨rfl, hu⟩
    exact ⟨ht.same hu, hu.volume, .inr ⟨hc, rfl⟩⟩

theorem Working.allocateBuffer (ht : Working m K s n t) :
    Returns (allocateBuffer m) t fun _ u => Working m K s n u ∧ volume m u = volume m t := by
  refine (allocateBuffer_spec m t).returns.imp ?_
  rintro r u (⟨-, -, hu⟩ | ⟨block, -, hu⟩)
  · exact ⟨ht.same hu, hu.volume⟩
  · exact ⟨ht.same hu, hu.volume⟩

section

theorem createDirent_working (hm : Ready m) (hd : d < 2 ∨ InRange m d) (hsupply : Supply m s 1)
    (name : List UInt8) (attr : UInt8) :
    Returns (createDirent m d name attr) s fun _ t => Working m (· = d) s 0 t := by
  have hs : Working m (· = d) s 1 s := .refl hsupply
  refine hs.allocateBuffer.bind fun r t ht => ?_
  replace ht := ht.1
  cases r with
  | none => exact returns_pure (ht.mono (Nat.zero_le 1))
  | some block =>
    refine (ht.readCluster hm hd).bind ?_
    rintro _ u ⟨hu, -, rfl | ⟨hd, rfl⟩⟩
    · exact hu.stop
    · dsimp only
      cases walkDirPath name with
      | none => exact hu.stop
      | some next =>
        dsimp only
        cases firstSlot (calculateMaxDirEntries m)
            (isDirectoryNamed ((volume m t).data d) · next.1) with
        | some i => exact hu.stop
        | none =>
          dsimp only
          cases firstSlot (calculateMaxDirEntries m) (isUnused ((volume m t).data d)) with
          | none => exact hu.stop
          | some i =>
            refine (hu.addEntry hm (.inl rfl) hd _ i _ attr).returns.bind ?_
            intro created w hw
            exact hw.1.stop

theorem exists_segments (path : List UInt8) : ∃ n, Segments path n := by
  induction hlen : path.length using Nat.strong_induction_on generalizing path with
  | _ length ih =>
    cases hwalk : walkDirPath path with
    | none => exact ⟨0, .none hwalk⟩
    | some next =>
      obtain ⟨n, hn⟩ := ih next.2.length (hlen ▸ (walkDirPath_eq_some hwalk).2) next.2 rfl
      exact ⟨n + 1, .some hwalk hn⟩

theorem Working.restart (ht : Working g K s 0 t) (hvol : volume g t = volume g s)
    (hsupply : Supply g s n) : Working g K s n t := by
  refine ⟨ht.beside, ht.data, ht.used, ?_⟩
  rcases hsupply with hroom | hspare
  · exact .inl (hvol ▸ hroom)
  · refine .inr fun c hhigh hlt => ?_
    rw [ht.beside.spare c hhigh hlt]
    exact hspare c hhigh hlt

/-- The loop of `fat32_mkdirp` is on the way of its path, in a new directory, or at its end. -/
inductive Passing (g : Geometry) (K : ℕ → Prop) (s : State) (parent : ℕ) (path : List UInt8) (d : ℕ)
    (rest : List UInt8) (t : State) : Prop
  | way : Working g K s 0 t → volume g t = volume g s → Visits g (volume g s) parent path d rest →
      Passing g K s parent path d rest t
  | new {n : ℕ} : Writable g K s t d → InRange g d → ((volume g t).data d = fun _ => 0) →
      Segments rest n → Working g K s n t → Passing g K s parent path d rest t
  | done : walkDirPath rest = none → Working g K s 0 t → Passing g K s parent path d rest t

theorem Passing.working {parent : ℕ} (h : Passing g K s parent path d rest t) :
    Working g K s 0 t := by
  cases h with
  | way ht _ _ => exact ht
  | new _ _ _ _ ht => exact ht.mono (Nat.zero_le _)
  | done _ ht => exact ht

variable (hm : Ready m) {parent : ℕ}
  (hway : ∀ d rest, Visits m (volume m s) parent path d rest → walkDirPath rest ≠ none → K d)
  (hpass : ∀ d rest name83 rest', Visits m (volume m s) parent path d rest →
    walkDirPath rest = some (name83, rest') → Passable m s d rest name83 rest')
include hm hway hpass

theorem mkdirpLoop_working {block fuel : ℕ} (ht : Passing m K s parent path d rest t) :
    Returns (mkdirpLoop m block fuel d rest) t fun _ u => Working m K s 0 u := by
  induction fuel generalizing d rest t with
  | zero =>
    intro r u hrun
    cases hrun
  | succ fuel ih =>
    rw [mkdirpLoop]
    by_cases hempty : rest.isEmpty = true
    · rw [if_pos hempty]
      exact ht.working.stop
    rw [if_neg hempty]
    cases hwalk : walkDirPath rest with
    | none =>
      refine (returns_readCluster (g := m) d t).bind fun r u hu => ?_
      cases r with
      | none => exact (ht.working.same hu).stop
      | some buf => exact (ht.working.same hu).stop
    | some next =>
      obtain ⟨name83, rest'⟩ := next
      cases ht with
      | done hdone _ => simp [hdone] at hwalk
      | @new n hKd hd hzero hsegs ht =>
        -- a new directory has no entries and gets one in its first slot
        obtain ⟨hnamed, hunused⟩ := slots_of_zero hm.sane hzero
        replace hnamed := hnamed name83
        unfold namedSlot at hnamed
        unfold unusedSlot at hunused
        cases hsegs with
        | none hnone => simp [hnone] at hwalk
        | @some _ name83' rest'' n hwalk' hsegs =>
          cases hwalk.symm.trans hwalk'
          refine (ht.readCluster hm (.inr hd)).bind ?_
          rintro _ u ⟨hu, hsame, rfl | ⟨-, rfl⟩⟩
          · exact hu.stop
          · simp only [hnamed, hunused]
            refine (hu.addEntry hm (hKd.same hsame) hd _ 0 _ _).returns.bind ?_
            rintro r w ⟨hw, hnew⟩
            cases r with
            | none => exact hw.stop
            | some f =>
              obtain ⟨hKf, hf, hempty⟩ := hnew f rfl
              exact ih (.new hKf hf hempty hsegs hw)
      | way ht hvol hvisits =>
        have hpassable := hpass d rest name83 rest' hvisits hwalk
        have hKd : K d := hway d rest hvisits (by simp [hwalk])
        refine (ht.readCluster hm hpassable.inRange).bind ?_
        rintro _ u ⟨hu, hvol', rfl | ⟨hd, rfl⟩⟩
        · exact hu.stop
        · replace hvol' := hvol'.trans hvol
          rw [hvol]
          dsimp only
          cases hnamed : namedSlot m (volume m s) d name83 with
          | some i =>
            have hslot := hnamed
            unfold namedSlot at hslot
            simp only [hslot]
            exact ih (.way hu hvol' (hvisits.tail (.found hwalk hnamed)))
          | none =>
            have hslot := hnamed
            unfold namedSlot at hslot
            simp only [hslot]
            cases hunused : unusedSlot m (volume m s) d with
            | some i =>
              have hslot' := hunused
              unfold unusedSlot at hslot'
              simp only [hslot']
              obtain ⟨n, hsegs⟩ := exists_segments rest'
              have hsupply := hpassable.supply hnamed i hunused (n + 1) (.some hwalk hsegs)
              have hready := hu.restart hvol' hsupply
              refine (hready.addEntry hm (.inl hKd) hd _ i _ _).returns.bind ?_
              rintro r w ⟨hw, hnew⟩
              cases r with
              | none => exact hw.stop
              | some f =>
                obtain ⟨hKf, hf, hempty⟩ := hnew f rfl
                exact ih (.new hKf hf hempty hsegs hw)
            | none =>
              have hslot' := hunused
              unfold unusedSlot at hslot'
              simp only [hslot']
              have hcell := hpassable.link hnamed hunused
              have hlink : Ends (linkClusterChain m d) u fun r w =>
                  (r = invalidCluster ∧ Working m K s 0 w) ∨
                    Passing m K s parent path r rest' w := by
                by_cases hlast : (volume m s).cells d = .last
                · obtain ⟨hdone, hsupply⟩ := hpassable.last hnamed hunused hlast
                  have hready := hu.restart hvol' hsupply
                  refine (hready.linkClusterChain hm (hvol' ▸ hcell) fun _ => one_pos).imp ?_
                  rintro r w (hend | ⟨-, hw, -⟩ | ⟨-, -, -, -, hw, -⟩)
                  · exact .inl hend
                  · exact .inr (.done hdone (hw.mono (Nat.zero_le 1)))
                  · exact .inr (.done hdone hw)
                · have hnot : (volume m u).cells d ≠ .last := hvol' ▸ hlast
                  refine (hu.linkClusterChain hm (hvol' ▸ hcell) fun h => absurd h hnot).imp ?_
                  rintro r w (hend | ⟨hnext, hw, hsame⟩ | ⟨h, -⟩)
                  · exact .inl hend
                  · rw [hvol'] at hnext
                    exact .inr (.way hw (hsame.trans hvol')
                      (hvisits.tail (.full hwalk hnamed hunused hnext)))
                  · exact absurd h hnot
              refine hlink.returns.bind ?_
              rintro next w (⟨rfl, hw⟩ | hw)
              · exact hw.stop
              · by_cases hzero : next = invalidCluster
                · rw [if_pos hzero]
                  exact hw.working.stop
                · rw [if_neg hzero]
                  exact ih hw

theorem mkdirp_working : Returns (mkdirp m parent path) s fun _ t => Working m K s 0 t := by
  have hs : Working m K s 0 s := .start
  refine hs.allocateBuffer.bind ?_
  rintro r t ⟨ht, hvol⟩
  cases r with
  | none => exact returns_pure ht
  | some block => exact mkdirpLoop_working hm hway hpass (.way ht hvol .refl)

end

section

variable {size prev left first offset : ℕ}

theorem setPrev_working (hm : Ready m) {value : ℕ} (ht : Working m K s n t) (hprev : prev = 0 ∨
      (InRange m prev ∧ (volume m t).cells prev ≠ .free))
    (hvalue : value < 2 ^ 28) (hpos : value ≠ 0) :
    Ends (setPrev m prev value) t fun _ u => Working m K s n u ∧
      ∀ c, (volume m u).cells c = .free → (volume m t).cells c = .free := by
  unfold setPrev
  by_cases hzero : prev = 0
  · rw [if_pos hzero]
    exact ends_pure ⟨ht, fun _ => id⟩
  · obtain ⟨hrange, hcell⟩ := hprev.resolve_left hzero
    rw [if_neg hzero]
    refine (ht.setCluster hm hrange hcell hvalue hpos).imp ?_
    rintro r u ⟨hu, ⟨-, hvol⟩ | ⟨-, hvol⟩⟩
    · refine ⟨hu, fun c hc => ?_⟩
      rw [hvol, Volume.setCell_cells] at hc
      by_cases hcp : c = prev
      · rw [hcp, Function.update_self, cellOf_eq_free] at hc
        exact absurd hc hpos
      · rwa [Function.update_of_ne hcp] at hc
    · exact ⟨hu, fun c hc => hvol ▸ hc⟩

theorem writeClusters_working (hm : Ready m)
    (ht : Working m K s left t) (hprev : prev = 0 ∨
      (InRange m prev ∧ (volume m t).cells prev ≠ .free)) :
    Ends (writeClusters m buf size left i first prev) t fun r u =>
      Working m K s 0 u ∧ ∀ first' prev', r = some (first', prev') →
        prev' = 0 ∨ (InRange m prev' ∧ (volume m u).cells prev' ≠ .free) := by
  induction left generalizing i first prev t with
  | zero =>
    refine ends_pure ⟨ht, ?_⟩
    rintro _ _ ⟨rfl, rfl⟩
    exact hprev
  | succ left ih =>
    rw [writeClusters]
    refine (ht.allocCluster hm).bind ?_
    rintro f u ⟨hu, ⟨rfl, -⟩ | ⟨hKf, hf, -, hvol⟩⟩
    · exact ends_pure ⟨hu.mono (Nat.zero_le left), by simp⟩
    · have hpos := hf.ne_invalid
      have hsmall := hm.sane.lt_of_inRange hf
      have htaken : (volume m u).cells f ≠ .free := by simp [hvol]
      have hprev' : prev = 0 ∨ (InRange m prev ∧ (volume m u).cells prev ≠ .free) := by
        refine hprev.imp_right fun h => ⟨h.1, ?_⟩
        rw [hvol, Volume.take_cells]
        by_cases hpf : prev = f
        · simp [hpf]
        · rw [Function.update_of_ne hpf]
          exact h.2
      rw [if_neg hpos]
      refine (setPrev_working hm hu hprev' hsmall hpos).bind ?_
      rintro ok w ⟨hw, hkept⟩
      cases ok with
      | false => exact ends_pure ⟨hw.mono (Nat.zero_le left), by simp⟩
      | true =>
        rw [if_pos rfl]
        refine (hw.writeCluster hm (hKf.mono (hkept f)) hf _).bind ?_
        rintro _ x ⟨rfl, hx, hdata⟩
        rw [if_pos rfl]
        refine ih hx (.inr ⟨hf, fun h => htaken (hkept f ?_)⟩)
        rwa [hdata] at h

theorem writeFile_working (hm : Ready m)
    (hsupply : Supply m s (u32 (size + (clusterSize m - 1)) / clusterSize m)) :
    Returns (writeFile m buf size) s fun _ t => Working m K s 0 t := by
  have hs := Working.refl (K := K) hsupply
  refine hs.allocateBuffer.bind ?_
  rintro r t ⟨ht, -⟩
  cases r with
  | none => exact returns_pure (ht.mono (Nat.zero_le _))
  | some block =>
    refine (writeClusters_working hm ht (.inl rfl)).returns.bind ?_
    rintro r u ⟨hu, hprev⟩
    cases r with
    | none => exact hu.stop
    | some found =>
      refine (setPrev_working hm hu (hprev found.1 found.2 rfl) (by decide : clusterEoc < 2 ^ 28)
        (by decide)).returns.bind ?_
      rintro ended w ⟨hw, -⟩
      exact hw.stop

/-- From each of the clusters the table leads to one of them, or ends. -/
def Closed (K : ℕ → Prop) (v : Volume) : Prop :=
  ∀ c, K c → v.cells c ≠ .broken ∧ ∀ d, v.cells c = .next d → K d

theorem closed_leads (h : ∀ c, Leads v d c → v.cells c ≠ .broken) : Closed (Leads v d) v :=
  fun c hc => ⟨h c hc, fun _ hnext => hc.tail hnext⟩

theorem Closed.writable (h : Closed K (volume g s)) : Closed (Writable g K s s) (volume g s) := by
  rintro c (hc | ⟨hfree, hused⟩)
  · exact ⟨(h c hc).1, fun d hd => .inl ((h c hc).2 d hd)⟩
  · exact absurd hfree hused

theorem Working.nextCluster (hm : Ready m) (ht : Working m K s n t)
    (hcell : (volume m t).cells c ≠ .broken) :
    Ends (nextCluster m c) t fun r u => Working m K s n u ∧
      volume m u = volume m t ∧
      (r = 0 ∨ clusterEocMin ≤ r ∨ (r < clusterEocMin ∧ (volume m t).cells c = .next r)) := by
  refine (nextCluster_spec hm (inRange_of_cells hcell) t).imp ?_
  rintro r u ⟨hr, hu⟩
  refine ⟨ht.same hu, hu.volume, ?_⟩
  rcases hr with hr | ⟨hr, -⟩
  · cases hcells : (volume m t).cells c with
    | broken => exact absurd hcells hcell
    | free =>
      rw [hcells, cellOf_eq_free] at hr
      exact .inl hr
    | last =>
      rw [hcells, cellOf_eq_last] at hr
      exact .inr (.inl hr)
    | next d =>
      rw [hcells] at hr
      obtain ⟨rfl, hd⟩ := cellOf_eq_next hr
      exact .inr (.inr ⟨Nat.lt_of_not_le (hm.sane.lt_eocMin hd), rfl⟩)
  · exact .inl hr

theorem walkClusters_working (hm : Ready m) (hclose : Closed K v)
    (ht : Working m K s n t) (hvol : volume m t = v) (hc : K c) :
    Ends (walkClusters m left c) t fun r u => Working m K s n u ∧
      volume m u = v ∧ ∀ e, r = some e → K e ∧
        ∀ k, Chain v.cells e k → ∃ l, Chain v.cells c l ∧ l.length = left + k.length := by
  induction left generalizing c t with
  | zero =>
    refine ends_pure ⟨ht, hvol, ?_⟩
    rintro _ ⟨rfl⟩
    exact ⟨hc, fun k hk => ⟨k, hk, (zero_add _).symm⟩⟩
  | succ left ih =>
    obtain ⟨hcell, hnext⟩ := hclose c hc
    refine (ht.nextCluster hm (by rwa [hvol])).bind ?_
    rw [hvol]
    rintro r u ⟨hu, hsame, hr⟩
    by_cases hstop : r = invalidCluster ∨ clusterEocMin ≤ r
    · rw [if_pos hstop]
      exact ends_pure ⟨hu, hsame, by simp⟩
    · rw [if_neg hstop]
      have hto : v.cells c = .next r := by
        rcases hr with hr | hr | hr
        · exact absurd (.inl hr) hstop
        · exact absurd (.inr hr) hstop
        · exact hr.2
      refine (ih hu hsame (hnext r hto)).imp ?_
      rintro r' w ⟨hw, hsame', hfound⟩
      refine ⟨hw, hsame', fun e he => ?_⟩
      obtain ⟨hKe, hlength⟩ := hfound e he
      refine ⟨hKe, fun k hk => ?_⟩
      obtain ⟨l, hl, hlen⟩ := hlength k hk
      exact ⟨c :: l, .cons hto hl, by rw [List.length_cons]; omega⟩

/-- The state of the loop of `fat32_write_file_at_offset`. -/
structure Filling (g : Geometry) (K : ℕ → Prop) (s : State) (size c offset written : ℕ) (n : ℕ)
    (t : State) : Prop where
  working : Working g K s n t
  cluster : Writable g K s t c
  closed : Closed (Writable g K s t) (volume g t)
  inside : offset < clusterSize g
  budget : ∀ k, Chain (volume g t).cells c k →
    offset + (size - written) ≤ (k.length + n) * clusterSize g

theorem Closed.congr (h : Closed (Writable g K s t) (volume g t))
    (hcells : (volume g u).cells = (volume g t).cells) :
    Closed (Writable g K s u) (volume g u) := by
  intro c hc
  obtain ⟨hcell, hnext⟩ := h c (hc.mono fun hfree => hcells ▸ hfree)
  rw [hcells]
  exact ⟨hcell, fun d hd => (hnext d hd).mono fun hfree => hcells ▸ hfree⟩

theorem Closed.append (h : Closed (Writable g K s t) (volume g t)) (hd : Writable g K s u d)
    (hne : c ≠ d) (hvol : volume g u = (volume g t).append c d) :
    Closed (Writable g K s u) (volume g u) := by
  intro x hx
  by_cases hxc : x = c
  · refine ⟨by simp [hvol, Volume.append, hxc], fun e he => ?_⟩
    simp only [hvol, Volume.append, Volume.setCell_cells, hxc, Function.update_self,
      Cell.next.injEq] at he
    exact he ▸ hd
  by_cases hxd : x = d
  · simp [hvol, Volume.append, hxd, hne.symm]
  · have hcells : (volume g u).cells x = (volume g t).cells x := by
      simp [hvol, Volume.append, hxc, hxd]
    obtain ⟨hcell, hnext⟩ := h x (hx.mono fun hfree => hcells.trans hfree)
    rw [hcells]
    refine ⟨hcell, fun e he => (hnext e he).mono fun hfree => ?_⟩
    by_cases hec : e = c
    · simp [hvol, Volume.append, hec] at hfree
    by_cases hed : e = d
    · simp [hvol, Volume.append, hed, hne.symm] at hfree
    · simpa [hvol, Volume.append, hec, hed] using hfree

theorem Filling.pass (hm : Ready m) {block written : ℕ}
    (ht : Filling m K s size c offset written n t) :
    Returns (writePass m block buf size (c, offset, written)) t fun r u =>
      (∃ next, r = .inl next ∧ ∃ n, Filling m K s size next.1 next.2.1 next.2.2 n u) ∨
        ∃ ok, r = .inr ok ∧ Working m K s 0 u := by
  obtain ⟨hw, hKc, hclose, hinside, hbudget⟩ := ht
  have hcell := (hclose c hKc).1
  have hc : InRange m c := inRange_of_cells hcell
  unfold writePass
  refine (hw.readCluster hm (.inr hc)).bind ?_
  rintro _ u ⟨hu, hvol, rfl | ⟨-, rfl⟩⟩
  · exact hu.returns_kfree fun _ hx => .inr ⟨false, rfl, hx.mono (Nat.zero_le n)⟩
  · refine (hu.writeCluster hm (hKc.same hvol) hc _).returns.bind ?_
    rintro _ w ⟨rfl, hw', hdata⟩
    rw [if_pos rfl]
    have hcells : (volume m w).cells = (volume m t).cells := by
      rw [hdata, Volume.setData_cells, hvol]
    rw [← hcells] at hbudget hcell
    have hclose' := hclose.congr hcells
    by_cases hdone : size ≤ written + min (size - written) (clusterSize m - offset)
    · rw [if_pos hdone]
      exact hw'.returns_kfree fun _ hx => .inr ⟨true, rfl, hx.mono (Nat.zero_le n)⟩
    · rw [if_neg hdone]
      have hmin : min (size - written) (clusterSize m - offset) = clusterSize m - offset := by omega
      rw [hmin] at hdone ⊢
      -- at the end of the chain there is an allocation left
      have hlastBudget : (volume m w).cells c = .last →
          offset + (size - written) ≤ (1 + n) * clusterSize m :=
        fun hlast => hbudget [c] (.last hlast)
      have hpos : (volume m w).cells c = .last → 0 < n := by
        intro hlast
        have hle := hlastBudget hlast
        by_contra hzero
        rw [Nat.eq_zero_of_not_pos hzero, Nat.one_mul] at hle
        omega
      refine (hw'.linkClusterChain hm hcell hpos).returns.bind ?_
      rintro r x (⟨rfl, hx⟩ | ⟨hnext, hx, hsame⟩ | ⟨hlast, hKr, hr, hfree, hx, hsame⟩)
      · exact returns_pure (.inr ⟨false, rfl, hx⟩)
      · have hrange : InRange m r := inRange_of_next hnext
        have hzero := hrange.ne_invalid
        rw [if_neg hzero]
        have hclose'' := hclose'.congr (congrArg Volume.cells hsame)
        have hKc' : Writable m K s x c := hKc.mono fun h => by rwa [hsame, hcells] at h
        refine returns_pure (.inl ⟨_, rfl, n, hx, (hclose'' c hKc').2 r (hsame ▸ hnext),
          hclose'', hm.sane.clusterSize_pos, fun k hk => ?_⟩)
        rw [hsame] at hk
        have hle := hbudget (c :: k) (.cons hnext hk)
        rw [List.length_cons, add_right_comm, Nat.succ_mul] at hle
        dsimp only
        omega
      · have hzero := hr.ne_invalid
        have hne := Used.ne (.inl hlast) hfree
        rw [if_neg hzero]
        refine returns_pure (.inl ⟨_, rfl, n - 1, hx, hKr, hclose'.append hKr hne hsame,
          hm.sane.clusterSize_pos, fun k hk => ?_⟩)
        rw [hsame] at hk
        have hend : ((volume m w).append c r).cells r = .last := by
          simp [Volume.append, hne.symm]
        have hle := hlastBudget hlast
        have hone : 1 + (n - 1) = n := by have := hpos hlast; omega
        rw [hk.unique (.last hend), List.length_singleton, hone]
        rw [add_mul, one_mul] at hle
        dsimp only
        omega

theorem writeFileAtOffset_working (hm : Ready m) {fuel : ℕ}
    (hchain : ∀ c, Leads (volume m s) first c → (volume m s).cells c ≠ .broken)
    (hsupply : Supply m s n) (hbudget : ∀ l, Chain (volume m s).cells first l →
      offset + size ≤ (l.length + n) * clusterSize m) :
    Returns (writeFileAtOffset m fuel first offset buf size) s fun _ t =>
      Working m (Leads (volume m s) first) s 0 t := by
  have hclose := closed_leads hchain
  refine (walkClusters_working hm hclose (.refl hsupply) rfl .refl).returns.bind ?_
  rintro r t ⟨ht, hvol, hfound⟩
  cases r with
  | none => exact returns_pure (ht.mono (Nat.zero_le n))
  | some c =>
    obtain ⟨hc, hlength⟩ := hfound c rfl
    refine ht.allocateBuffer.bind ?_
    rintro r u ⟨hu, hvol'⟩
    cases r with
    | none => exact returns_pure (hu.mono (Nat.zero_le n))
    | some block =>
      replace hvol' := hvol'.trans hvol
      refine returns_iterate (fun b t => ∃ n, Filling m _ s size b.1 b.2.1 b.2.2 n t) ?_
        ⟨n, hu, .inl hc, hclose.writable.congr (congrArg Volume.cells hvol'),
          Nat.mod_lt _ hm.sane.clusterSize_pos, fun k hk => ?_⟩
      · rintro ⟨c, offset, written⟩ w ⟨n, hw⟩
        exact hw.pass hm
      · rw [hvol'] at hk
        obtain ⟨l, hl, hlen⟩ := hlength k hk
        have hle := hbudget l hl
        have hsplit := Nat.div_add_mod' offset (clusterSize m)
        rw [hlen, add_assoc, add_mul] at hle
        dsimp only
        omega

end

theorem Working.returns_next (hm : Ready m) {α : Type} {p : Action (ℕ ⊕ α)} (ht : Working m K s n t)
    (hcell : (volume m t).cells c ≠ .broken) (hp : ∀ u, Working m K s n u →
      Returns p u fun r w => ∃ a, r = .inr a ∧ Working m K s n w) :
    Returns (do
      let next ← Fat.nextCluster m c
      if clusterEocMin ≤ next then p else pure (.inl next)) t fun r u =>
        (∃ next, r = .inl next ∧ (next < 2 ∨ (volume m t).cells c = .next next) ∧
          Working m K s n u ∧ volume m u = volume m t) ∨
        ∃ a, r = .inr a ∧ Working m K s n u := by
  refine (ht.nextCluster hm hcell).returns.bind ?_
  rintro r u ⟨hu, hsame, hr⟩
  by_cases hlast : clusterEocMin ≤ r
  · rw [if_pos hlast]
    exact (hp u hu).imp fun _ _ => .inr
  · rw [if_neg hlast]
    refine returns_pure (.inl ⟨r, rfl, ?_, hu, hsame⟩)
    rcases hr with rfl | hr | hr
    · exact .inl (by decide)
    · exact absurd hr hlast
    · exact .inr hr.2

theorem updateDirentSize_working (hm : Ready m) {fuel start file size : ℕ}
    (hchain : ∀ c, Leads (volume m s) (if start = 0 then m.rootCluster else start) c →
      (volume m s).cells c ≠ .broken) :
    Returns (updateDirentSize m fuel start file size) s fun _ t =>
      Working m (Leads (volume m s) (if start = 0 then m.rootCluster else start)) s 0 t := by
  have hclose := closed_leads hchain
  unfold updateDirentSize
  dsimp only
  generalize (if start = 0 then m.rootCluster else start) = first at *
  have hs : Working m (Leads (volume m s) first) s 0 s := .start
  refine hs.allocateBuffer.bind ?_
  rintro r t ⟨ht, hvol⟩
  cases r with
  | none => exact returns_pure ht
  | some block =>
    refine returns_iterate (fun c t => (c < 2 ∨ Leads (volume m s) first c) ∧
      Working m (Leads (volume m s) first) s 0 t ∧
      volume m t = volume m s) ?_ ⟨.inr .refl, ht, hvol⟩
    rintro c u ⟨hc, hu, hvol⟩
    have hrange : c < 2 ∨ InRange m c := hc.imp_right fun h => inRange_of_cells (hchain c h)
    unfold updateCluster
    refine (hu.readCluster hm hrange).bind ?_
    rintro _ w ⟨hw, hvol', rfl | ⟨hrange, rfl⟩⟩
    · exact hw.returns_kfree fun _ hx => .inr ⟨false, rfl, hx⟩
    · have hKc : Leads (volume m s) first c := hc.resolve_left fun h => absurd hrange.1 (by omega)
      replace hvol' := hvol'.trans hvol
      dsimp only
      cases firstSlot (clusterSize m / direntSize)
          (fun i => entryCluster ((volume m u).data c) i == file) with
      | some i =>
        refine (hw.writeCluster hm (.inl hKc) hrange _).returns.bind ?_
        rintro _ x ⟨rfl, hx, -⟩
        exact hx.returns_kfree fun _ hy => .inr ⟨true, rfl, hy⟩
      | none =>
        refine (hw.returns_next hm ?_ fun x hx => ?_).imp ?_
        · rw [hvol']
          exact (hclose c hKc).1
        · exact hx.returns_kfree fun _ hy => ⟨false, rfl, hy⟩
        · rw [hvol']
          rintro r x (⟨next, rfl, hnext, hx, hsame⟩ | hend)
          · exact .inl ⟨next, rfl, hnext.imp_right ((hclose c hKc).2 next), hx, hsame⟩
          · exact .inr hend

theorem deleteDirent_working (hm : Ready m) {fuel target parent : ℕ}
    (hchain : ∀ c, Leads (volume m s) target c → (volume m s).cells c ≠ .broken)
    (hpar : parent < 2 ∨ InRange m parent) :
    Returns (deleteDirent m fuel target parent) s fun _ t =>
      Working m (fun c => Leads (volume m s) target c ∨ c = parent) s 0 t := by
  have hclose := closed_leads hchain
  let K := fun c => Leads (volume m s) target c ∨ c = parent
  have hs : Working m K s 0 s := .start
  refine hs.allocateBuffer.bind ?_
  rintro r t ⟨ht, hvol⟩
  cases r with
  | none => exact returns_pure ht
  | some block =>
    have hwalk : Returns (iterate (deleteCluster m block) fuel target) t fun _ u =>
        Working m K s 0 u := by
      refine returns_iterate (fun c t => (c < 2 ∨ Leads (volume m s) target c) ∧
        Working m K s 0 t ∧
        (volume m t).cells = (volume m s).cells) ?_
        ⟨.inr .refl, ht, by rw [hvol]⟩
      rintro c u ⟨hc, hu, hcells⟩
      have hrange : c < 2 ∨ InRange m c := hc.imp_right fun h => inRange_of_cells (hchain c h)
      unfold deleteCluster
      refine (hu.readCluster hm hrange).bind ?_
      rintro _ w ⟨hw, hvol', rfl | ⟨hrange, rfl⟩⟩
      · exact hw.returns_kfree fun _ hx => .inr ⟨false, rfl, hx⟩
      · have hKc : Leads (volume m s) target c :=
          hc.resolve_left fun h => absurd hrange.1 (by omega)
        refine (hw.writeCluster hm (.inl (.inl hKc)) hrange _).returns.bind ?_
        rintro _ x ⟨rfl, hx, hdata⟩
        rw [if_pos rfl]
        have hcells' : (volume m x).cells = (volume m s).cells := by
          rw [hdata, Volume.setData_cells, hvol', hcells]
        refine (hx.returns_next hm ?_ fun y hy => ?_).imp ?_
        · rw [hcells']
          exact (hclose c hKc).1
        · exact returns_pure ⟨true, rfl, hy⟩
        · rw [hcells']
          rintro r y (⟨next, rfl, hnext, hy, hsame⟩ | hend)
          · exact .inl ⟨next, rfl, hnext.imp_right ((hclose c hKc).2 next), hy,
              (congrArg Volume.cells hsame).trans hcells'⟩
          · exact .inr hend
    refine hwalk.bind fun ok u hu => ?_
    cases ok with
    | false => exact returns_pure hu
    | true =>
      rw [if_pos rfl]
      refine (hu.readCluster hm hpar).bind ?_
      rintro _ w ⟨hw, -, rfl | ⟨hrange, rfl⟩⟩
      · exact hw.stop
      · dsimp only
        cases firstSlot (calculateMaxDirEntries m)
            (fun i => entryCluster ((volume m u).data parent) i == target) with
        | none => exact hw.stop
        | some i =>
          refine (hw.writeCluster hm (.inl (.inr rfl)) hrange _).returns.bind ?_
          rintro _ x ⟨rfl, hx, -⟩
          exact hx.stop

end Taavi.Fat
