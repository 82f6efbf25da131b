import Taavi.Fat.System

/-!
# Names in a directory

`fat32_create_dirent` and `fat32_mkdirp` look for a name in the first cluster of a directory and
among its directories only. The names in a directory stay different where that is enough.
-/

namespace Taavi.Fat

open Lib

variable {m : Mount} {g : Geometry} {s t : State} {v v' v'' : Volume} {c d e f i j : ℕ}
  {path rest name83 : List UInt8} {attr : UInt8} {r : Bool}

structure InUse (g : Geometry) (v : Volume) (d c i : ℕ) : Prop where
  chain : ∃ l, Chain v.cells d l ∧ c ∈ l
  bound : i < calculateMaxDirEntries g
  used : (slot v c i).unused = false

/-- No two slots of a directory that are in use have the same name. -/
def UniqueNames (g : Geometry) (v : Volume) (d : ℕ) : Prop :=
  ∀ c i c' i', InUse g v d c i → InUse g v d c' i' → (slot v c i).name = (slot v c' i').name →
    c = c' ∧ i = i'

def HasName (g : Geometry) (v : Volume) (d : ℕ) (name83 : List UInt8) : Prop :=
  ∃ c i, InUse g v d c i ∧ (slot v c i).name = name83

theorem hasName_of_namedSlot (hused : ∃ l, Chain v.cells d l)
    (hslot : namedSlot g v d name83 = some i) :
    InUse g v d d i ∧ (slot v d i).name = name83 ∧ (slot v d i).IsDir := by
  obtain ⟨hi, hnamed, -⟩ := firstSlot_eq_some.mp hslot
  obtain ⟨hinUse, hname, hdir⟩ := isDirectoryNamed_iff.mp hnamed
  obtain ⟨l, hl⟩ := hused
  exact ⟨⟨⟨l, hl, hl.self_mem⟩, hi, hinUse⟩, hname, hdir⟩

theorem chain_take_iff (hsound : Sound v.cells) (hfree : v.cells f = .free) (hd : Used v.cells d)
    {l : List ℕ} : Chain (Function.update v.cells f .last) d l ↔ Chain v.cells d l := by
  have hgrown : Grown (fun _ => False) v.cells (Function.update v.cells f .last) :=
    grown_take _ hfree
  constructor
  · exact hgrown.chain_back hsound hd fun _ _ _ _ => id
  · exact fun hl => hgrown.chain hl fun _ _ => id

theorem InUse.of_addEntry (hsound : Sound v.cells) (hfree : v.cells f = .free) (hf : f < 2 ^ 32)
    (hname : name83.length = 11) (hd : Used v.cells d)
    (h : InUse g (v.addEntry g e i name83 attr f) d c j) :
    (c = e ∧ j = i ∧ slot (v.addEntry g e i name83 attr f) c j = ⟨name83, attr, f, 0⟩) ∨
      (InUse g v d c j ∧ slot (v.addEntry g e i name83 attr f) c j = slot v c j) := by
  obtain ⟨⟨l, hl, hc⟩, hj, hused⟩ := h
  have hl' : Chain v.cells d l := (chain_take_iff hsound hfree hd).mp hl
  have hcf := (hl'.used_of_mem hc).ne hfree
  have hslot : slot (v.addEntry g e i name83 attr f) c j =
      if c = e ∧ j = i then ⟨name83, attr, f, 0⟩ else slot v c j := by
    rw [slot_addEntry hname hf hj, if_neg hcf]
  by_cases hnew : c = e ∧ j = i
  · rw [if_pos hnew] at hslot
    exact .inl ⟨hnew.1, hnew.2, hslot⟩
  · rw [if_neg hnew] at hslot
    rw [hslot] at hused
    exact .inr ⟨⟨⟨l, hl', hc⟩, hj, hused⟩, hslot⟩

theorem inUse_addEntry (hfree : v.cells f = .free) (hf : f < 2 ^ 32) (hname : name83.length = 11)
    (hd : ∃ l, Chain v.cells d l) (hi : i < calculateMaxDirEntries g)
    (hhead : name83.headD 0 ≠ direntFree ∧ name83.headD 0 ≠ direntDeleted) :
    InUse g (v.addEntry g d i name83 attr f) d d i ∧
      slot (v.addEntry g d i name83 attr f) d i = ⟨name83, attr, f, 0⟩ := by
  obtain ⟨l, hl⟩ := hd
  have hdf := hl.used.ne hfree
  have hslot : slot (v.addEntry g d i name83 attr f) d i = ⟨name83, attr, f, 0⟩ := by
    rw [slot_addEntry hname hf hi, if_neg hdf, if_pos ⟨rfl, rfl⟩]
  have hgrown : Grown (fun _ => False) v.cells (Function.update v.cells f .last) :=
    grown_take _ hfree
  refine ⟨⟨⟨l, hgrown.chain hl fun _ _ => id, hl.self_mem⟩, hi, ?_⟩, hslot⟩
  rw [hslot]
  simp only [Entry.unused, Bool.or_eq_false_iff, beq_eq_false_iff_ne]
  exact hhead

theorem UniqueNames.addEntry (h : UniqueNames g v d) (hsound : Sound v.cells)
    (hfree : v.cells f = .free) (hf : f < 2 ^ 32) (hname : name83.length = 11) (hd : Used v.cells d)
    (hnew : (∃ l, Chain v.cells d l ∧ e ∈ l) → ¬HasName g v d name83) :
    UniqueNames g (v.addEntry g e i name83 attr f) d := by
  have hother : ∀ {c j}, InUse g v d c j → (∃ l, Chain v.cells d l ∧ e ∈ l) →
      (slot v c j).name ≠ name83 := fun hinUse hmem heq => hnew hmem ⟨_, _, hinUse, heq⟩
  have hchain : ∀ {c j}, InUse g (v.addEntry g e i name83 attr f) d c j → c = e →
      ∃ l, Chain v.cells d l ∧ e ∈ l := by
    rintro c j ⟨⟨l, hl, hc⟩, -, -⟩ rfl
    exact ⟨l, (chain_take_iff hsound hfree hd).mp hl, hc⟩
  intro c j c' j' hinUse hinUse' heq
  rcases hinUse.of_addEntry hsound hfree hf hname hd with ⟨hc, hj, hslot⟩ | ⟨hold, hslot⟩ <;>
    rcases hinUse'.of_addEntry hsound hfree hf hname hd with ⟨hc', hj', hslot'⟩ | ⟨hold', hslot'⟩
  · exact ⟨hc.trans hc'.symm, hj.trans hj'.symm⟩
  · rw [hslot, hslot'] at heq
    exact absurd heq.symm (hother hold' (hchain hinUse hc))
  · rw [hslot, hslot'] at heq
    exact absurd heq (hother hold (hchain hinUse' hc'))
  · rw [hslot, hslot'] at heq
    exact h c j c' j' hold hold' heq

theorem not_inUse_addEntry (hf : f < 2 ^ 32) (hname : name83.length = 11) :
    ¬InUse g (v.addEntry g e i name83 attr f) f c j := by
  rintro ⟨⟨l, hl, hc⟩, hj, hused⟩
  have hself : Chain (v.addEntry g e i name83 attr f).cells f [f] :=
    .last (by simp [Volume.addEntry])
  rw [hl.unique hself, List.mem_singleton] at hc
  rw [slot_addEntry hname hf hj, if_pos hc, entryAt_zero_unused] at hused
  cases hused

/-- The names of a chain stay different, and so are those of a new directory. -/
structure NamesKept (g : Geometry) (v v' : Volume) : Prop where
  heads : ∀ d, Head v.cells d → Head v'.cells d
  kept : ∀ d, Head v.cells d → UniqueNames g v d → UniqueNames g v' d
  fresh : ∀ d, IsDirectory g v' d → IsDirectory g v d ∨ UniqueNames g v' d

theorem NamesKept.refl (g : Geometry) (v : Volume) : NamesKept g v v :=
  ⟨fun _ => id, fun _ _ => id, fun _ => .inl⟩

theorem NamesKept.trans (h : NamesKept g v v') (h' : NamesKept g v' v'')
    (hv' : Consistent g v') : NamesKept g v v'' := by
  refine ⟨fun d hd => h'.heads d (h.heads d hd), ?_, ?_⟩
  · intro d hd huniq
    exact h'.kept d (h.heads d hd) (h.kept d hd huniq)
  · intro d hd
    rcases h'.fresh d hd with hd' | huniq
    · exact (h.fresh d hd').imp_right (h'.kept d (hv'.head hd'))
    · exact .inr huniq

theorem namesKept_take (hv : Consistent g v) (hfree : v.cells f = .free) :
    NamesKept g v (v.take f) := by
  have hgrown : Grown (fun _ => False) v.cells (v.take f).cells := grown_take _ hfree
  refine ⟨fun d hd => hgrown.head hd, ?_, ?_⟩
  · intro d hd huniq
    have hold : ∀ {c i}, InUse g (v.take f) d c i → InUse g v d c i := by
      rintro c i ⟨⟨l, hl, hc⟩, hi, hused⟩
      exact ⟨⟨l, (chain_take_iff hv.cells hfree hd.used).mp hl, hc⟩, hi, hused⟩
    exact fun c i c' i' h h' heq => huniq c i c' i' (hold h) (hold h') heq
  · intro d hd
    exact ((changed_take hv hfree).isDirectory hv hd).imp_right False.elim

theorem namesKept_addEntry (hv : Consistent g v) (hfree : v.cells f = .free) (hf : f < 2 ^ 32)
    (hname : name83.length = 11) (he : Head v.cells e) (hnew : ¬HasName g v e name83) :
    NamesKept g v (v.addEntry g e i name83 attr f) := by
  have hprog : Progress g (fun _ => False) v (v.addEntry g e i name83 attr f) :=
    hv.addEntry hfree hf hname
  refine ⟨fun d hd => hprog.grown.head hd, ?_, ?_⟩
  · intro d hd huniq
    refine huniq.addEntry hv.cells hfree hf hname hd.used ?_
    -- a first cluster is in no other chain
    rintro ⟨l, hl, hmem⟩
    have hed : e = d := by
      by_contra hne
      obtain ⟨y, -, hy⟩ := hl.exists_prev hmem hne
      exact he.first y hy
    rwa [← hed]
  · intro d hd
    refine (hprog.directories d hd).imp_right fun hcell => ?_
    have hdf : d = f := by
      by_contra hne
      have hcell' : (v.addEntry g e i name83 attr f).cells d = .free := by
        simp [Volume.addEntry, hne, hcell]
      exact absurd hcell' (hprog.consistent.head hd).used.not_free
    rw [hdf]
    exact fun c j _ _ hinUse => absurd hinUse (not_inUse_addEntry hf hname)

/-- The first directory on the path without a directory of the next name in its first cluster has no
entry of that name at all. -/
inductive NewPath (g : Geometry) (v : Volume) : ℕ → List UInt8 → Prop
  | stop {d : ℕ} {path : List UInt8} : walkDirPath path = none → NewPath g v d path
  | found {d i : ℕ} {path name83 rest : List UInt8} : walkDirPath path = some (name83, rest) →
      namedSlot g v d name83 = some i → NewPath g v (slot v d i).cluster rest → NewPath g v d path
  | missing {d : ℕ} {path name83 rest : List UInt8} : walkDirPath path = some (name83, rest) →
      ¬HasName g v d name83 → NewPath g v d path

theorem newPath_of_empty (hempty : ∀ c j, ¬InUse g v d c j) : NewPath g v d path := by
  cases hwalk : walkDirPath path with
  | none => exact .stop hwalk
  | some next =>
    refine .missing hwalk ?_
    rintro ⟨c, j, hinUse, -⟩
    exact hempty c j hinUse

theorem Mkdirp.namesKept (hm : Ready m) (h : Mkdirp m v d path r v')
    (hv : Consistent m v) (hd : Head v.cells d)
    (hdir : IsDirectory m v d ∨ ∀ name83, namedSlot m v d name83 = none)
    (hpath : NewPath m v d path) : NamesKept m v v' := by
  induction h with
  | failed _ hv' =>
    rcases hv' with rfl | ⟨f, hfree, rfl⟩
    · exact .refl _ _
    · exact namesKept_take hv (free_of_nextFree hfree)
  | done => exact .refl _ _
  | unnamed _ => exact .refl _ _
  | @found v v' d i path name83 rest r hwalk hnamed _ ih =>
    have hchild := hv.isDirectory_of_namedSlot hdir hwalk hnamed
    refine ih hv (hv.head hchild) (.inl hchild) ?_
    cases hpath with
    | stop hstop => simp [hwalk] at hstop
    | found hwalk' hnamed' hrest =>
      cases hwalk.symm.trans hwalk'
      cases hnamed.symm.trans hnamed'
      exact hrest
    | missing hwalk' hnew =>
      cases hwalk.symm.trans hwalk'
      obtain ⟨hinUse, hname, -⟩ := hasName_of_namedSlot (hv.cells.ends d hd.used) hnamed
      exact absurd ⟨d, i, hinUse, hname⟩ hnew
  | @added v v' d i f path name83 rest r hwalk hnamed _ hfree _ ih =>
    have hcell := free_of_nextFree hfree
    have hf := hm.sane.nextFree_lt hfree
    have hname := walkDirPath_length hwalk
    have hnew : ¬HasName m v d name83 := by
      cases hpath with
      | stop hstop => simp [hwalk] at hstop
      | found hwalk' hnamed' _ =>
        cases hwalk.symm.trans hwalk'
        simp [hnamed] at hnamed'
      | missing hwalk' hnew =>
        cases hwalk.symm.trans hwalk'
        exact hnew
    have hadd : Progress m (fun _ => False) v
        (v.addEntry m d i name83 attrDirectory f) := hv.addEntry hcell hf hname
    have hhead : Head (v.addEntry m d i name83 attrDirectory f).cells f := head_take hv.cells hcell
    have hzero : (v.addEntry m d i name83 attrDirectory f).data f = fun _ => 0 := by
      simp [Volume.addEntry]
    have hrest := ih hadd.consistent hhead (.inr (slots_of_zero hm.sane hzero).1)
      (newPath_of_empty fun c j => not_inUse_addEntry hf hname)
    exact (namesKept_addEntry hv hcell hf hname hd hnew).trans hrest hadd.consistent

/-- The name can be that of an entry in use, and no entry has it, or a directory of that name is in
the first cluster and a directory is asked for. -/
def NewName (g : Geometry) (v : Volume) (d : ℕ) (path : List UInt8) (attr : UInt8) : Prop :=
  ∀ name83 rest, walkDirPath path = some (name83, rest) →
    (name83.headD 0 ≠ direntFree ∧ name83.headD 0 ≠ direntDeleted) ∧
      (¬HasName g v d name83 ∨ (namedSlot g v d name83).isSome = true ∧ attr &&& attrDirectory ≠ 0)

theorem Created.namesKept (hm : Ready m) (h : Created m v d path attr r v')
    (hv : Consistent m v) (hd : Head v.cells d) (hnew : NewName m v d path attr) :
    NamesKept m v v' ∧ (r = true → ∃ name83 rest c i,
      walkDirPath path = some (name83, rest) ∧ InUse m v' d c i ∧
        (slot v' c i).name = name83 ∧
        ((slot v' c i).IsDir ↔ attr &&& attrDirectory ≠ 0)) := by
  have hchain := hv.cells.ends d hd.used
  cases h with
  | failed _ hv' =>
    refine ⟨?_, nofun⟩
    rcases hv' with rfl | ⟨f, hfree, rfl⟩
    · exact .refl _ _
    · exact namesKept_take hv (free_of_nextFree hfree)
  | unnamed | full => exact ⟨.refl _ _, nofun⟩
  | @found name83 rest i hwalk hnamed =>
    obtain ⟨hinUse, hname, hdir⟩ := hasName_of_namedSlot hchain hnamed
    refine ⟨.refl _ _, fun _ => ⟨name83, rest, d, i, hwalk, hinUse, hname, ?_⟩⟩
    rcases (hnew name83 rest hwalk).2 with hnone | ⟨-, hattr⟩
    · exact absurd ⟨d, i, hinUse, hname⟩ hnone
    · exact iff_of_true hdir hattr
  | @added name83 rest i f hwalk hnamed hunused hfree =>
    have hcell := free_of_nextFree hfree
    have hf := hm.sane.nextFree_lt hfree
    have hlen := walkDirPath_length hwalk
    obtain ⟨hhead, hclash⟩ := hnew name83 rest hwalk
    have hnone : ¬HasName m v d name83 := by
      rcases hclash with hnone | ⟨hsome, -⟩
      · exact hnone
      · simp [hnamed] at hsome
    have hi : i < calculateMaxDirEntries m := (firstSlot_eq_some.mp hunused).1
    have hentry : InUse m (v.addEntry m d i name83 attr f) d d i ∧
        slot (v.addEntry m d i name83 attr f) d i = ⟨name83, attr, f, 0⟩ :=
      inUse_addEntry hcell hf hlen hchain hi hhead
    obtain ⟨hinUse, hslot⟩ := hentry
    refine ⟨namesKept_addEntry hv hcell hf hlen hd hnone, fun _ => ?_⟩
    exact ⟨name83, rest, d, i, hwalk, hinUse, by rw [hslot], by rw [hslot]; exact Iff.rfl⟩

/-- The calls that make entries, with names that are new in their directories. -/
def Op.Unclashing (g : Geometry) (v : Volume) : Op → Prop
  | .createDirent directory name attributes => NewName g v directory name attributes
  | .mkdirp parent path => NewPath g v parent path
  | _ => False

abbrev NamingStep (m : Mount) : State → Op → State → Prop :=
  Guarded (fun s op => op.Fits m.toGeometry (volume m.toGeometry s) ∧
    op.Unclashing m.toGeometry (volume m.toGeometry s)) (Step m)

theorem created_of_fits (hm : Ready m) (hv : Consistent m (volume m s))
    (hfits : (Op.createDirent d path attr).Fits m (volume m s))
    (hrun : createDirent m d path attr s = some (r, t)) :
    Created m (volume m s) d path attr r (volume m t) := by
  obtain ⟨hd, hroom⟩ := hfits
  obtain ⟨f, hfree⟩ := exists_nextFree hroom
  obtain ⟨v', ht, hcreated⟩ :=
    (createDirent_spec hm (inRange_of_used (hv.head hd).used) rfl hfree path attr).of_eq hrun
  rwa [ht.volume]

theorem Step.namesKept (hm : Ready m) (hv : Consistent m (volume m s))
    {op : Op} (hfits : op.Fits m (volume m s))
    (hnew : op.Unclashing m (volume m s)) (hstep : Step m s op t) :
    NamesKept m (volume m s) (volume m t) := by
  obtain ⟨fuel, out, hrun⟩ := hstep
  cases op with
  | createDirent directory name attributes =>
    obtain ⟨⟨ok, u⟩, hcall, heq⟩ := Option.bind_eq_some_iff.mp hrun
    obtain ⟨-, rfl⟩ := Prod.mk.inj (Option.some.inj heq)
    have hcreated := created_of_fits hm hv hfits hcall
    exact (hcreated.namesKept hm hv (hv.head hfits.1) hnew).1
  | mkdirp parent path =>
    obtain ⟨⟨ok, u⟩, hcall, heq⟩ := Option.bind_eq_some_iff.mp hrun
    obtain ⟨-, rfl⟩ := Prod.mk.inj (Option.some.inj heq)
    obtain ⟨hd, n, henters, hroom⟩ := hfits
    obtain ⟨v', ht, hmade⟩ := (mkdirp_spec hm rfl hv hd henters hroom).of_eq hcall
    rw [ht.volume]
    exact hmade.namesKept hm hv (hv.head hd) (.inl hd) hnew
  | writeFile | writeFileAtOffset | updateDirentSize | deleteDirent => exact hnew.elim

end Taavi.Fat
