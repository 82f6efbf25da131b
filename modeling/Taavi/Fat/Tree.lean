import Taavi.Fat.Slots
import Taavi.Fat.Table

/-!
# The tree of directories

The directories that are found from the root. A volume is consistent if its clusters form disjoint
chains that end and every entry names the first cluster of one. The file system keeps this.
-/

namespace Taavi.Fat

open Lib Function

def slot (v : Volume) (c i : ℕ) : Entry := entryAt (v.data c) i

structure Listed (g : Geometry) (v : Volume) (d c i : ℕ) : Prop where
  chain : ∃ l, Chain v.cells d l ∧ c ∈ l
  bound : i < calculateMaxDirEntries g
  live : (slot v c i).Live

inductive IsDirectory (g : Geometry) (v : Volume) : ℕ → Prop
  | root : IsDirectory g v g.rootCluster
  | child {d c i : ℕ} : IsDirectory g v d → Listed g v d c i → (slot v c i).IsDir →
      IsDirectory g v (slot v c i).cluster

/-- The clusters in use form disjoint chains that end, whose first clusters the entries name. -/
structure Consistent (g : Geometry) (v : Volume) : Prop where
  cells : Sound v.cells
  root : Head v.cells g.rootCluster
  entries : ∀ d c i, IsDirectory g v d → Listed g v d c i → Head v.cells (slot v c i).cluster

variable {g : Geometry} {v v' v'' : Volume} {F F' : ℕ → Prop} {c d f h i : ℕ} {l : List ℕ}

theorem Consistent.head (hv : Consistent g v) (hd : IsDirectory g v d) : Head v.cells d := by
  cases hd with
  | root => exact hv.root
  | child hpar hlist _ => exact hv.entries _ _ _ hpar hlist

theorem Consistent.exists_chain (hv : Consistent g v) (hd : IsDirectory g v d) :
    ∃ l, Chain v.cells d l := hv.cells.ends d (hv.head hd).used

section

/-- The volume stays consistent, clusters are only added, only chains with an end in `F` become
longer, and new directories are at clusters that were free. -/
structure Progress (g : Geometry) (F : ℕ → Prop) (v v' : Volume) : Prop where
  consistent : Consistent g v'
  grown : Grown F v.cells v'.cells
  directories : ∀ d, IsDirectory g v' d → IsDirectory g v d ∨ v.cells d = .free

theorem Progress.refl (hv : Consistent g v) : Progress g F v v :=
  ⟨hv, .refl F v.cells, fun _ hd => .inl hd⟩

theorem Progress.trans (h : Progress g F v v') (h' : Progress g F' v' v'')
    (hF : ∀ a, F' a → F a ∨ v.cells a = .free) : Progress g F v v'' := by
  refine ⟨h'.consistent, h.grown.trans h'.grown hF, fun d hd => ?_⟩
  rcases h'.directories d hd with hd | hfree
  · exact h.directories d hd
  · exact .inr (h.grown.free_of_free hfree)

theorem Progress.mono (h : Progress g F v v') (hF : ∀ a, F a → F' a) : Progress g F' v v' :=
  ⟨h.consistent, h.grown.mono hF, h.directories⟩

/-- A slot has an entry only where it had one, for the same cluster and of the same kind. -/
structure SlotKept (v v' : Volume) (c i : ℕ) : Prop where
  live : (slot v c i).Live
  cluster : (slot v' c i).cluster = (slot v c i).cluster
  dir : (slot v' c i).IsDir → (slot v c i).IsDir

/-- The chains of directories are kept, and new entries are for chains without entries. -/
structure Changed (g : Geometry) (F : ℕ → Prop) (new : ℕ → Prop) (v v' : Volume) : Prop where
  sound : Sound v'.cells
  grown : Grown F v.cells v'.cells
  kept : ∀ d l, IsDirectory g v d → Chain v.cells d l → ∀ x ∈ l, ¬ F x
  fresh : ∀ x, new x → v.cells x = .free ∧ Head v'.cells x ∧ ∀ c i, ¬ Listed g v' x c i
  slots : ∀ d l c i, IsDirectory g v d → Chain v.cells d l → c ∈ l →
    i < calculateMaxDirEntries g → (slot v' c i).Live →
      SlotKept v v' c i ∨ new (slot v' c i).cluster

variable {new : ℕ → Prop}

theorem Changed.listed (h : Changed g F new v v') (hv : Consistent g v) (hd : IsDirectory g v d)
    (hentry : Listed g v' d c i) :
    (Listed g v d c i ∧ SlotKept v v' c i) ∨ new (slot v' c i).cluster := by
  obtain ⟨⟨l, hl, hc⟩, hi, hlive⟩ := hentry
  have hl' : Chain v.cells d l :=
    h.grown.chain_back hv.cells (hv.head hd).used (fun k hk => h.kept d k hd hk) hl
  refine (h.slots d l c i hd hl' hc hi hlive).imp_left fun hkept => ⟨?_, hkept⟩
  exact ⟨⟨l, hl', hc⟩, hi, hkept.live⟩

theorem Changed.isDirectory (h : Changed g F new v v') (hv : Consistent g v)
    (hd : IsDirectory g v' d) : IsDirectory g v d ∨ new d := by
  induction hd with
  | root => exact .inl .root
  | @child d c i _ hentry hdir ih =>
    rcases ih with hd | hd
    · rcases h.listed hv hd hentry with ⟨hold, hkept⟩ | hfresh
      · left
        rw [hkept.cluster]
        exact .child hd hold (hkept.dir hdir)
      · exact .inr hfresh
    · exact absurd hentry ((h.fresh d hd).2.2 c i)

theorem Changed.progress (h : Changed g F new v v') (hv : Consistent g v) : Progress g F v v' := by
  refine ⟨⟨h.sound, h.grown.head hv.root, ?_⟩, h.grown, ?_⟩
  · intro d c i hd hentry
    rcases h.isDirectory hv hd with hd | hd
    · rcases h.listed hv hd hentry with ⟨hold, hkept⟩ | hfresh
      · rw [hkept.cluster]
        exact h.grown.head (hv.entries d c i hd hold)
      · exact (h.fresh _ hfresh).2.1
    · exact absurd hentry ((h.fresh d hd).2.2 c i)
  · exact fun d hd => (h.isDirectory hv hd).imp_right fun hfresh => (h.fresh d hfresh).1

end

theorem changed_setData (hv : Consistent g v) {buf : Memory}
    (hbuf : ∀ d l, IsDirectory g v d → Chain v.cells d l → c ∈ l →
      ∀ i < calculateMaxDirEntries g, (entryAt buf i).Live → SlotKept v (v.setData c buf) c i) :
    Changed g (fun _ => False) (fun _ => False) v (v.setData c buf) := by
  refine ⟨hv.cells, .refl _ _, fun _ _ _ _ _ _ => id, fun _ h => h.elim, ?_⟩
  intro d l e i hd hl he hi hlive
  by_cases hec : e = c
  · subst hec
    refine .inl (hbuf d l hd hl he i hi ?_)
    rwa [slot, Volume.setData_data, update_self] at hlive
  · have hsame : slot (v.setData c buf) e i = slot v e i := by
      rw [slot, Volume.setData_data, update_of_ne hec, slot]
    rw [hsame] at hlive
    exact .inl ⟨hlive, by rw [hsame], by rw [hsame]; exact id⟩

theorem changed_take (hv : Consistent g v) (hfree : v.cells f = .free) :
    Changed g (fun _ => False) (fun _ => False) v (v.take f) :=
  ⟨hv.cells.take hfree, grown_take _ hfree, fun _ _ _ _ _ _ => id, fun _ h => h.elim,
    fun _ _ _ _ _ _ _ _ hlive => .inl ⟨hlive, rfl, id⟩⟩

theorem Consistent.take (hv : Consistent g v) (hfree : v.cells f = .free) :
    Progress g F v (v.take f) :=
  ((changed_take hv hfree).progress hv).mono fun _ => False.elim

theorem Consistent.weaken (hv : Consistent g v) {buf : Memory}
    (hbuf : ∀ i < calculateMaxDirEntries g, (entryAt buf i).Live →
      SlotKept v (v.setData c buf) c i) :
    Progress g F v (v.setData c buf) :=
  ((changed_setData hv fun _ _ _ _ _ => hbuf).progress hv).mono fun _ => False.elim

/-- The first cluster of a chain that is not a directory. -/
structure IsFile (g : Geometry) (v : Volume) (h : ℕ) : Prop where
  head : Head v.cells h
  notDirectory : ¬ IsDirectory g v h

theorem Progress.isFile (hp : Progress g F v v') (hh : IsFile g v h) : IsFile g v' h := by
  refine ⟨hp.grown.head hh.head, fun hd => ?_⟩
  rcases hp.directories h hd with hd | hfree
  · exact hh.notDirectory hd
  · exact hh.head.used.not_free hfree

theorem IsFile.not_mem (hh : IsFile g v h) (hv : Consistent g v) (hl : Chain v.cells h l)
    (hc : c ∈ l) (hd : IsDirectory g v d) {k : List ℕ} (hk : Chain v.cells d k) : c ∉ k := by
  refine Chain.disjoint_of_heads hv.cells hh.head (hv.head hd) ?_ hl hk hc
  rintro rfl
  exact hh.notDirectory hd

theorem Consistent.setFile (hv : Consistent g v) (hh : IsFile g v h) (hl : Chain v.cells h l)
    (hc : c ∈ l) (buf : Memory) : Progress g F v (v.setData c buf) := by
  have hchanged : Changed g (fun _ => False) (fun _ => False) v (v.setData c buf) :=
    changed_setData hv fun d k hd hk hck => absurd hck (hh.not_mem hv hl hc hd hk)
  exact (hchanged.progress hv).mono fun _ => False.elim

theorem head_take (hv : Sound v.cells) (hfree : v.cells f = .free) : Head (v.take f).cells f := by
  refine ⟨.inl (by simp), fun b hb => ?_⟩
  by_cases hbf : b = f
  · simp [hbf] at hb
  · rw [Volume.take_cells, update_of_ne hbf] at hb
    exact hv.not_to_free hfree hb

theorem isFile_take (hv : Consistent g v) (hfree : v.cells f = .free) : IsFile g (v.take f) f := by
  refine ⟨head_take hv.cells hfree, fun hd => ?_⟩
  rcases (changed_take hv hfree).isDirectory hv hd with hd | hnew
  · exact (hv.head hd).used.not_free hfree
  · exact hnew

theorem chain_append (hl : Chain v.cells h l) (hc : c ∈ l) (hlast : v.cells c = .last)
    (hfree : v.cells f = .free) : Chain (v.append c f).cells h (l ++ [f]) := by
  have hfl : ∀ x ∈ l, x ≠ f := fun x hx => (hl.used_of_mem hx).ne hfree
  have hl' : Chain (v.take f).cells h l := hl.congr fun x hx => update_of_ne (hfl x hx) _ _
  refine hl'.link hc ?_ (.last (by simp)) ?_
  · rw [Volume.take_cells, update_of_ne (hfl c hc), hlast]
  · simpa using hfl c hc

theorem Consistent.append (hv : Consistent g v) (hh : IsFile g v h) (hl : Chain v.cells h l)
    (hc : c ∈ l) (hlast : v.cells c = .last) (hfree : v.cells f = .free) :
    Progress g (· = c) v (v.append c f) := by
  have hcf := Used.ne (.inl hlast) hfree
  have hsound : Sound (v.append c f).cells := by
    refine (hv.cells.take hfree).link ?_ (head_take hv.cells hfree) ?_
    · rw [update_of_ne hcf, hlast]
    · intro k hk
      have hself : Chain (v.take f).cells f [f] := .last (by simp)
      rw [hk.unique hself, List.mem_singleton]
      exact hcf
  have hchanged : Changed g (· = c) (fun _ => False) v (v.append c f) := by
    refine ⟨hsound, grown_append hlast hfree, ?_, fun _ h => h.elim,
      fun _ _ _ _ _ _ _ _ hlive => .inl ⟨hlive, rfl, id⟩⟩
    rintro d k hd hk x hx rfl
    exact hh.not_mem hv hl hc hd hk hx
  exact hchanged.progress hv

section

def Volume.addEntry (g : Geometry) (v : Volume) (d i : ℕ) (name83 : List UInt8) (attr : UInt8)
    (f : ℕ) : Volume :=
  ((v.take f).setData d (clip g (withEntry (v.data d) i name83 attr f))).setData f fun _ => 0

variable {name83 : List UInt8} {attr : UInt8}

theorem slot_addEntry (hname : name83.length = 11) (hf : f < 2 ^ 32) {e j : ℕ}
    (hj : j < calculateMaxDirEntries g) :
    slot (v.addEntry g d i name83 attr f) e j =
      if e = f then entryAt (fun _ => 0) j
      else if e = d ∧ j = i then ⟨name83, attr, f, 0⟩
      else slot v e j := by
  unfold slot Volume.addEntry
  simp only [Volume.setData_data, Volume.take_data]
  by_cases hef : e = f
  · rw [if_pos hef, hef, update_self]
  · rw [if_neg hef, update_of_ne hef]
    by_cases hed : e = d
    · rw [hed, update_self, entryAt_clip g hj, entryAt_withEntry hname hf]
      simp only [true_and]
    · rw [update_of_ne hed, if_neg (fun h => hed h.1)]

theorem Consistent.addEntry (hv : Consistent g v) (hfree : v.cells f = .free) (hf : f < 2 ^ 32)
    (hname : name83.length = 11) :
    Progress g F v (v.addEntry g d i name83 attr f) := by
  have hempty : ∀ c j, ¬ Listed g (v.addEntry g d i name83 attr f) f c j := by
    rintro c j ⟨⟨l, hl, hc⟩, hj, hlive⟩
    have hself : Chain (v.addEntry g d i name83 attr f).cells f [f] :=
      .last (by simp [Volume.addEntry])
    rw [hl.unique hself, List.mem_singleton] at hc
    rw [slot_addEntry hname hf hj, if_pos hc] at hlive
    exact absurd hlive.1 (by rw [entryAt_zero_unused]; decide)
  have hchanged : Changed g (fun _ => False) (· = f) v (v.addEntry g d i name83 attr f) := by
    refine ⟨hv.cells.take hfree, grown_take _ hfree, fun _ _ _ _ _ _ => id, ?_, ?_⟩
    · rintro x rfl
      exact ⟨hfree, head_take hv.cells hfree, hempty⟩
    · intro e k c j he hk hc hj hlive
      have hcf := (hk.used_of_mem hc).ne hfree
      have hslot : slot (v.addEntry g d i name83 attr f) c j =
          if c = d ∧ j = i then ⟨name83, attr, f, 0⟩ else slot v c j := by
        rw [slot_addEntry hname hf hj, if_neg hcf]
      by_cases hnew : c = d ∧ j = i
      · right
        rw [hslot, if_pos hnew]
      · rw [if_neg hnew] at hslot
        rw [hslot] at hlive
        exact .inl ⟨hlive, by rw [hslot], by rw [hslot]; exact id⟩
  exact (hchanged.progress hv).mono fun _ => False.elim

end

theorem consistent_of_root (hroot : v.cells g.rootCluster = .last)
    (hcells : ∀ c, c ≠ g.rootCluster → v.cells c = .free ∨ v.cells c = .broken)
    (hdata : v.data g.rootCluster = fun _ => 0) : Consistent g v := by
  have hnext : ∀ a b, v.cells a ≠ .next b := by
    intro a b
    by_cases ha : a = g.rootCluster
    · simp [ha, hroot]
    · rcases hcells a ha with h | h <;> simp [h]
  have hchain : Chain v.cells g.rootCluster [g.rootCluster] := .last hroot
  have hempty : ∀ c i, ¬ Listed g v g.rootCluster c i := by
    rintro c i ⟨⟨l, hl, hc⟩, -, hlive⟩
    rw [hl.unique hchain, List.mem_singleton] at hc
    rw [hc, slot, hdata] at hlive
    exact absurd hlive.1 (by rw [entryAt_zero_unused]; decide)
  have hdirs : ∀ d, IsDirectory g v d → d = g.rootCluster := by
    intro d hd
    induction hd with
    | root => rfl
    | child _ hlist _ ih => exact absurd (ih ▸ hlist) (hempty _ _)
  refine ⟨⟨?_, fun a b c ha => absurd ha (hnext a c)⟩, ⟨.inl hroot, fun b => hnext b _⟩, ?_⟩
  · intro a ha
    refine ⟨[a], .last ?_⟩
    rcases ha with hlast | ⟨b, hb⟩
    · exact hlast
    · exact absurd hb (hnext a b)
  · intro d c i hd hlist
    exact absurd (hdirs d hd ▸ hlist) (hempty c i)

end Taavi.Fat
