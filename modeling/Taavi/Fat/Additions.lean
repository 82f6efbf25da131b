import Taavi.Fat.Paths
import Taavi.Fat.Scans
import Taavi.Fat.System

/-!
# Searches after a creation

`fat32_create_dirent` fills the first unused slot. A search for the name finds the new entry and all
other searches give what they gave, unless the entry got another name or a search passes it over.
-/

namespace Taavi.Fat

open Lib List Option

variable {m : Mount} {g : Geometry} {s t : State} {v v' : Volume} {d i f : ℕ} {k : List ℕ}
  {front rest rest' : List (ℕ × ℕ)} {p : ℕ × ℕ} {name name83 other : List UInt8} {attr : UInt8}

def searched (v : Volume) (name83 : List UInt8) (l : List (ℕ × ℕ)) : Option Found :=
  ((l.find? fun p => (slot v p.1 p.2).stops name83).filter fun p =>
    (slot v p.1 p.2).name.headD 0 != direntFree).map fun p => (slot v p.1 p.2).found

theorem searches_iff_searched (hm : Ready m) (hheap : ¬HeapFails m)
    (hk : Chain (volume m s).cells d k) {r : Option Found} :
    Searches m s d name83 r ↔ r = searched (volume m s) name83 (places m k) := by
  rw [searches_iff hm hheap hk, entrySlot, findSlot_eq_find?, searched]

theorem searched_nil : searched v name83 [] = none := rfl

theorem searched_cons : searched v name83 (p :: rest) =
    if (slot v p.1 p.2).name.headD 0 = direntFree then none
    else if (slot v p.1 p.2).hidden = false ∧ (slot v p.1 p.2).name = name83 then
      some (slot v p.1 p.2).found
    else searched v name83 rest := by
  have hstops : (slot v p.1 p.2).stops name83 = true ↔
      (slot v p.1 p.2).name.headD 0 = direntFree ∨
        ((slot v p.1 p.2).hidden = false ∧ (slot v p.1 p.2).name = name83) := by
    simp [Entry.stops, Entry.hidden]
  unfold searched
  by_cases hfree : (slot v p.1 p.2).name.headD 0 = direntFree
  · have hstop := hstops.mpr (.inl hfree)
    rw [if_pos hfree, List.find?_cons, hstop]
    dsimp only
    rw [filter_some, if_neg (by rw [bne, hfree]; decide)]
    rfl
  · rw [if_neg hfree]
    by_cases hfound : (slot v p.1 p.2).hidden = false ∧ (slot v p.1 p.2).name = name83
    · have hstop := hstops.mpr (.inr hfound)
      rw [if_pos hfound, List.find?_cons, hstop]
      dsimp only
      rw [filter_some, if_pos (bne_iff_ne.mpr hfree)]
      rfl
    · have hpass : (slot v p.1 p.2).stops name83 = false :=
        Bool.eq_false_iff.mpr fun h => (hstops.mp h).elim hfree hfound
      rw [if_neg hfound, List.find?_cons, hpass]

theorem searched_append (hfront : ∀ p ∈ front, slot v' p.1 p.2 = slot v p.1 p.2)
    (hrest : searched v' name83 rest' = searched v name83 rest) :
    searched v' name83 (front ++ rest') = searched v name83 (front ++ rest) := by
  induction front with
  | nil => exact hrest
  | cons p front ih =>
    rw [cons_append, cons_append, searched_cons, searched_cons,
      hfront p mem_cons_self, ih fun q hq => hfront q (mem_cons_of_mem _ hq)]

theorem searched_skip (hfront : ∀ p ∈ front, (slot v p.1 p.2).unused = false ∧
      (slot v p.1 p.2).name ≠ name83) :
    searched v name83 (front ++ rest) = searched v name83 rest := by
  induction front with
  | nil => rfl
  | cons p front ih =>
    obtain ⟨hused, hname⟩ := hfront p mem_cons_self
    have hfree : (slot v p.1 p.2).name.headD 0 ≠ direntFree := by
      intro h
      rw [Entry.unused, h] at hused
      cases hused
    rw [cons_append, searched_cons, if_neg hfree, if_neg fun h => hname h.2]
    exact ih fun q hq => hfront q (mem_cons_of_mem _ hq)

/-- Behind a slot that was never used there is no entry. -/
def EndsOnce (g : Geometry) (v : Volume) (k : List ℕ) : Prop :=
  ∀ front p rest, places g k = front ++ p :: rest →
    (slot v p.1 p.2).name.headD 0 = direntFree →
      ∀ q ∈ rest, (slot v q.1 q.2).name.headD 0 = direntFree

theorem searched_of_other (hends : EndsOnce g v (d :: k)) (hi : i < calculateMaxDirEntries g)
    (hunused : (slot v d i).unused = true) (hother : (slot v' d i).name ≠ other)
    (hhead : (slot v' d i).name.headD 0 ≠ direntFree)
    (hsame : ∀ p ∈ places g (d :: k), p ≠ (d, i) → slot v' p.1 p.2 = slot v p.1 p.2)
    (hnot : d ∉ k) :
    searched v' other (places g (d :: k)) = searched v other (places g (d :: k)) := by
  obtain ⟨rest, hsplit, hrest⟩ := places_split (d := d) (k := k) hi
  have hrests : ∀ p ∈ rest, slot v' p.1 p.2 = slot v p.1 p.2 := by
    intro p hp
    have hmem : p ∈ places g (d :: k) := by
      rw [hsplit]
      exact mem_append_right _ (mem_cons_of_mem _ hp)
    refine hsame p hmem ?_
    rintro rfl
    rcases hrest _ hp with hk | ⟨-, hlt⟩
    · exact hnot hk
    · exact absurd hlt (lt_irrefl i)
  rw [hsplit]
  refine searched_append (fun p hp => ?_) ?_
  · obtain ⟨j, hj, rfl⟩ := mem_map.mp hp
    have hmem : (d, j) ∈ places g (d :: k) := by
      rw [hsplit]
      exact mem_append_left _ hp
    refine hsame _ hmem ?_
    have hlt := mem_range.mp hj
    exact fun h => absurd (Prod.mk.inj h).2 (by omega)
  · rw [searched_cons, searched_cons, if_neg hhead, if_neg fun h => hother h.2]
    have hlater : searched v' other (rest ++ []) = searched v other (rest ++ []) :=
      searched_append hrests (searched_nil.trans searched_nil.symm)
    rw [append_nil] at hlater
    rw [hlater]
    by_cases hfree : (slot v d i).name.headD 0 = direntFree
    · -- the old end is followed by nothing
      rw [if_pos hfree]
      have hempty := hends _ _ _ hsplit hfree
      cases rest with
      | nil => rfl
      | cons q rest => rw [searched_cons, if_pos (hempty q mem_cons_self)]
    · have hdel : (slot v d i).hidden = true := by
        have hor := Bool.or_eq_true_iff.mp hunused
        rw [beq_iff_eq] at hor
        exact Bool.or_eq_true_iff.mpr (.inl (hor.resolve_left hfree))
      rw [if_neg hfree, if_neg fun h => by simp [hdel] at h]

/-- A directory on a volume with a free cluster, and a name for a new entry. -/
structure Creatable (m : Mount) (s : State) (d : ℕ) (k : List ℕ) (name : List UInt8) : Prop where
  chain : Chain (volume m.toGeometry s).cells d k
  room : 0 < room m.toGeometry (volume m.toGeometry s)
  ends : EndsOnce m.toGeometry (volume m.toGeometry s) k
  unused : unusedSlot m.toGeometry (volume m.toGeometry s) d ≠ none
  segment : slash ∉ name
  head : (format83 name).headD 0 ≠ direntFree ∧ (format83 name).headD 0 ≠ direntDeleted
  new : ∀ p ∈ places m.toGeometry k, (slot (volume m.toGeometry s) p.1 p.2).unused = false →
    (slot (volume m.toGeometry s) p.1 p.2).name ≠ format83 name

/-- The name is found with the attributes, no bytes and a new cluster; no other search has changed. -/
def AddedOnly (m : Mount) (s t : State) (d : ℕ) (name : List UInt8) (attr : UInt8) : Prop :=
  (∃ f, (volume m.toGeometry s).cells f = .free ∧ Chain (volume m.toGeometry t).cells f [f] ∧
    ((volume m.toGeometry t).data f = fun _ => 0) ∧
    Searches m t d (format83 name) (some ⟨f, 0, attr⟩)) ∧
  ∀ other, other ≠ format83 name → ∀ r, Searches m t d other r ↔ Searches m s d other r

theorem walkDirPath_of_segment (hne : name ≠ []) (hseg : slash ∉ name) :
    walkDirPath name = some (format83 (name.take 12), name.drop 12) := by
  have hwalk : walkDirPath (name ++ []) = some (format83 (name.take 12), name.drop 12 ++ []) :=
    walkDirPath_append hne hseg (.inl rfl)
  rwa [append_nil, append_nil] at hwalk

theorem Creatable.ne_of_mem (h : Creatable m s d k name)
    (hfree : nextFree m (volume m s) = some f) {e : ℕ} (he : e ∈ k) : e ≠ f := by
  exact (h.chain.used_of_mem he).ne (free_of_nextFree hfree)

theorem Creatable.slot_addEntry (h : Creatable m s d k name) (hm : Ready m)
    (hfree : nextFree m (volume m s) = some f) (hname : name83.length = 11) (hp : p ∈ places m k) :
    slot ((volume m s).addEntry m d i name83 attr f) p.1 p.2 =
      if p = (d, i) then ⟨name83, attr, f, 0⟩ else slot (volume m s) p.1 p.2 := by
  obtain ⟨hpk, hj⟩ := mem_places.mp hp
  rw [Fat.slot_addEntry hname (hm.sane.nextFree_lt hfree) hj, if_neg (h.ne_of_mem hfree hpk)]
  simp only [Prod.ext_iff]

theorem Creatable.chain_addEntry (h : Creatable m s d k name)
    (hfree : nextFree m (volume m s) = some f) :
    Chain ((volume m s).addEntry m d i name83 attr f).cells d k :=
  h.chain.congr fun _ he => Function.update_of_ne (h.ne_of_mem hfree he) ..

theorem exists_place_of_searches (hm : Ready m) (hheap : ¬HeapFails m)
    (hk : Chain (volume m t).cells d k) {r : Found} (h : Searches m t d name83 (some r)) :
    ∃ p ∈ places m k, (slot (volume m t) p.1 p.2).unused = false ∧
      (slot (volume m t) p.1 p.2).hidden = false ∧ (slot (volume m t) p.1 p.2).name = name83 := by
  rw [searches_iff hm hheap hk] at h
  obtain ⟨p, hp, -⟩ := map_eq_some_iff.mp h.symm
  obtain ⟨hvis, hname⟩ := visible_of_entrySlot hp
  obtain ⟨hplace, hfree, hhidden⟩ := mem_visiblePlaces hvis
  refine ⟨p, hplace, ?_, hhidden, hname⟩
  rw [Entry.unused, Bool.or_eq_false_iff, beq_eq_false_iff_ne]
  exact ⟨hfree, (Bool.or_eq_false_iff.mp hhidden).1⟩

theorem Creatable.addedOnly (h : Creatable m s d k name) (hm : Ready m) (hheap : ¬HeapFails m)
    (hne : name ≠ []) (hattr : attr &&& longFileName ≠ longFileName)
    (hname : format83 (name.take 12) = format83 name) :
    ∃ t, createDirent m d name attr s = some (true, t) ∧ AddedOnly m s t d name attr := by
  obtain ⟨f, hfree⟩ := exists_nextFree h.room
  have hcell := free_of_nextFree hfree
  have hwalk := walkDirPath_of_segment hne h.segment
  rw [hname] at hwalk
  obtain ⟨k', rfl⟩ := h.chain.exists_cons
  have hplace : ∀ j < calculateMaxDirEntries m, (d, j) ∈ places m (d :: k') := fun j hj =>
    mem_places.mpr ⟨mem_cons_self, hj⟩
  obtain ⟨r, t, hrun, v', ht, hcreated⟩ :=
    createDirent_spec hm (inRange_of_used h.chain.used) rfl hfree name attr
  cases hcreated with
  | failed hfail => exact absurd hfail hheap
  | unnamed hnone => simp [hwalk] at hnone
  | full _ _ hnone => exact absurd hnone h.unused
  | found hsome hslot =>
    obtain ⟨rfl, -⟩ := Prod.mk.inj (Option.some.inj (hwalk.symm.trans hsome))
    obtain ⟨hi, hnamed, -⟩ := firstSlot_eq_some.mp hslot
    obtain ⟨hused, hsame, -⟩ := isDirectoryNamed_iff.mp hnamed
    exact absurd hsame (h.new _ (hplace _ hi) hused)
  | @added _ _ i f' hsome _ hslot hfree' =>
    obtain ⟨rfl, -⟩ := Prod.mk.inj (Option.some.inj (hwalk.symm.trans hsome))
    cases hfree.symm.trans hfree'
    obtain ⟨hi, hunused, hpre⟩ := firstSlot_eq_some.mp hslot
    have hnew : slot (volume m t) d i = ⟨format83 name, attr, f, 0⟩ := by
      rw [ht.volume, h.slot_addEntry hm hfree (format83_length name) (hplace i hi), if_pos rfl]
    have hsame : ∀ p ∈ places m (d :: k'), p ≠ (d, i) →
        slot (volume m t) p.1 p.2 = slot (volume m s) p.1 p.2 := by
      intro p hp hne
      rw [ht.volume, h.slot_addEntry hm hfree (format83_length name) hp, if_neg hne]
    have hchain : Chain (volume m t).cells d (d :: k') := ht.volume ▸ h.chain_addEntry hfree
    refine ⟨t, hrun, ⟨f, hcell, ?_, ?_, ?_⟩, fun other hother r => ?_⟩
    · refine .last ?_
      rw [ht.volume]
      exact Function.update_self ..
    · rw [ht.volume]
      exact Function.update_self ..
    · obtain ⟨rest, hsplit, -⟩ := places_split (k := k') hi
      rw [searches_iff_searched hm hheap hchain, hsplit, searched_skip, searched_cons, hnew,
        if_neg h.head.1, if_pos]
      · rfl
      · rw [Entry.hidden, Bool.or_eq_false_iff, beq_eq_false_iff_ne, beq_eq_false_iff_ne]
        exact ⟨⟨h.head.2, hattr⟩, rfl⟩
      · intro p hp
        obtain ⟨j, hj, rfl⟩ := mem_map.mp hp
        have hlt := mem_range.mp hj
        have hjd := hplace j (hlt.trans hi)
        rw [hsame _ hjd fun heq => by simp at heq; omega]
        exact ⟨hpre j hlt, h.new _ hjd (hpre j hlt)⟩
    · rw [searches_iff_searched hm hheap hchain, searches_iff_searched hm hheap h.chain,
        searched_of_other h.ends hi hunused (by rw [hnew]; exact hother.symm)
          (by rw [hnew]; exact h.head.1) hsame (nodup_cons.mp h.chain.nodup).1]

theorem Creatable.of_addedOnly (h : Creatable m s d k name) (hm : Ready m) (hheap : ¬HeapFails m)
    (hrun : createDirent m d name attr s = some (true, t)) (hadded : AddedOnly m s t d name attr) :
    name ≠ [] ∧ attr &&& longFileName ≠ longFileName ∧ format83 (name.take 12) = format83 name := by
  obtain ⟨f, hfree⟩ := exists_nextFree h.room
  obtain ⟨v', ht, hcreated⟩ :=
    (createDirent_spec hm (inRange_of_used h.chain.used) rfl hfree name attr).of_eq hrun
  obtain ⟨⟨f', -, -, -, hsearch⟩, -⟩ := hadded
  cases hcreated with
  | found hwalk =>
    -- there was a directory with the name that is made of the first characters
    obtain ⟨p, hp, hused, -, hname⟩ :=
      exists_place_of_searches hm hheap (ht.volume ▸ h.chain) hsearch
    rw [ht.volume] at hused hname
    exact absurd hname (h.new p hp hused)
  | added hwalk _ _ hfree' =>
    obtain ⟨p, hp, hused, hshown, hname⟩ :=
      exists_place_of_searches hm hheap (ht.volume ▸ h.chain_addEntry hfree') hsearch
    rw [ht.volume, h.slot_addEntry hm hfree' (walkDirPath_length hwalk) hp] at hused hshown hname
    split_ifs at hused hshown hname with hnew
    · have hne : name ≠ [] := by
        rintro rfl
        cases hwalk
      rw [walkDirPath_of_segment hne h.segment] at hwalk
      obtain ⟨rfl, -⟩ := Prod.mk.inj (Option.some.inj hwalk)
      exact ⟨hne, beq_eq_false_iff_ne.mp (Bool.or_eq_false_iff.mp hshown).2, hname⟩
    · exact absurd hname (h.new p hp hused)

theorem creatable_emptyStart (hseg : slash ∉ name)
    (hhead : (format83 name).headD 0 ≠ direntFree ∧ (format83 name).headD 0 ≠ direntDeleted) :
    Creatable (smallMount 4) emptyStart 2 [2] name := by
  have hfree : ∀ p ∈ places (smallGeometry 4) [2],
      (slot (volume (smallGeometry 4) emptyStart) p.1 p.2).name.headD 0 = direntFree := by
    intro p hp
    obtain ⟨hclus, -⟩ := mem_places.mp hp
    rw [mem_singleton.mp hclus, slot, data_emptyStart]
    rfl
  refine ⟨.last (cells_emptyStart (by decide)), by decide +kernel, ?_, by decide +kernel, hseg,
    hhead, fun p hp hused => ?_⟩
  · intro front p rest hsplit _ q hq
    refine hfree q (?_ : q ∈ places (smallGeometry 4) [2])
    have hmem : q ∈ front ++ p :: rest := by simp [hq]
    rwa [← hsplit] at hmem
  · have hunused : (slot (volume (smallGeometry 4) emptyStart) p.1 p.2).unused = true := by
      rw [Entry.unused, hfree p hp]
      rfl
    exact absurd (hused.symm.trans hunused) (by decide)

variable {q : ℕ × ℕ} {size : ℕ}

/-- A search for the name gives the size, and the other visible entries are as they were. -/
def SizeReaches (m : Mount) (s t : State) (d : ℕ) (k : List ℕ) (p : ℕ × ℕ) (size : ℕ) : Prop :=
  (∃ r : Found, r.size = size ∧
    Searches m t d (slot (volume m.toGeometry s) p.1 p.2).name (some r)) ∧
  ∀ q ∈ visiblePlaces m.toGeometry (volume m.toGeometry s) k, q ≠ p →
    slot (volume m.toGeometry t) q.1 q.2 = slot (volume m.toGeometry s) q.1 q.2

theorem entrySlot_setSize : entrySlot g (v.setSize g d i size) name83 k = entrySlot g v name83 k := by
  rw [entrySlot, entrySlot, findSlot_setSize fun _ _ => rfl]
  cases hfind : findSlot g v (Entry.stops name83) k with
  | none => rfl
  | some q =>
    obtain ⟨-, hq, -⟩ := findSlot_eq_some hfind
    have hname : (slot (v.setSize g d i size) q.1 q.2).name = (slot v q.1 q.2).name := by
      rw [slot_setSize hq]
      split_ifs with hsame
      · rw [hsame.1, hsame.2]
      · rfl
    rw [filter_some, filter_some, hname]

theorem sizeReaches_iff (hm : Ready m) (hheap : ¬HeapFails m) (hk : Chain (volume m s).cells d k)
    (huniq : DistinctNames m (volume m s) k) (hp : p ∈ visiblePlaces m (volume m s) k)
    (hsize : size < 2 ^ 32) (ht : volume m t = (volume m s).setSize m q.1 q.2 size) :
    SizeReaches m s t d k p size ↔ q = p ∨ (slot (volume m s) p.1 p.2).size = size ∧
      (q ∈ visiblePlaces m (volume m s) k → (slot (volume m s) q.1 q.2).size = size) := by
  have hk' : Chain (volume m t).cells d k := by
    rw [ht]
    exact hk
  have hslot : ∀ x ∈ visiblePlaces m (volume m s) k, slot (volume m t) x.1 x.2 =
      if x = q then { slot (volume m s) q.1 q.2 with size := size }
      else slot (volume m s) x.1 x.2 := by
    intro x hx
    have hbound := (mem_places.mp (mem_visiblePlaces hx).1).2
    rw [ht, slot_setSize hbound, Nat.mod_eq_of_lt hsize]
    simp only [Prod.ext_iff]
  have hsearch : ∀ r, Searches m t d (slot (volume m s) p.1 p.2).name (some r) ↔
      r = (slot (volume m t) p.1 p.2).found := by
    intro r
    rw [searches_iff hm hheap hk', ht, entrySlot_setSize, entrySlot_of_visible huniq hp, ← ht]
    exact some_inj
  constructor
  · rintro ⟨⟨r, hr, hfound⟩, hothers⟩
    by_cases hpq : q = p
    · exact .inl hpq
    · rw [hsearch, hslot p hp, if_neg (Ne.symm hpq)] at hfound
      refine .inr ⟨by rw [← hr, hfound]; rfl, fun hq => ?_⟩
      have hsame := hothers q hq hpq
      rw [hslot q hq, if_pos rfl] at hsame
      exact (congrArg Entry.size hsame).symm
  · intro hcases
    refine ⟨⟨_, ?_, (hsearch _).mpr rfl⟩, fun x hx hne => ?_⟩
    · rw [hslot p hp]
      split_ifs with hpq
      · rfl
      · exact (hcases.resolve_left (Ne.symm hpq)).1
    · rw [hslot x hx]
      split_ifs with hxq
      · subst hxq
        rw [← (hcases.resolve_left hne).2 hx]
      · rfl

/-- A root directory with a deleted entry that has the cluster of the first of two files. -/
def staleStart : State :=
  { emptyStart with disk := assign emptyStart.disk 3 fun x =>
      if 96 ≤ x then 0
      else if x % 32 = 0 then [direntDeleted, 65, 66].getD (x / 32) 0
      else if x % 32 = 26 then [3, 3, 4].getD (x / 32) 0
      else if x % 32 < 11 then 32 else 0 }

theorem staleStart_directory : Chain (volume (smallGeometry 4) staleStart).cells 2 [2] ∧
    visiblePlaces (smallGeometry 4) (volume (smallGeometry 4) staleStart) [2] = [(2, 1), (2, 2)] ∧
    DistinctNames (smallGeometry 4) (volume (smallGeometry 4) staleStart) [2] := by
  refine ⟨.last (by decide +kernel), by decide +kernel, ?_⟩
  unfold DistinctNames
  decide +kernel

end Taavi.Fat
