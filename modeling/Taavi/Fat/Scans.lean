import Taavi.Fat.Listing

/-!
# The entries that a search sees

`__fat32_search_dir` compares the slots of a directory in order, up to the first unused one and
without deleted ones and parts of long names. `fat32_list_dir` shows those in the first cluster.
-/

namespace Taavi.Fat

open Lib List

def Entry.hidden (e : Entry) : Bool :=
  e.name.headD 0 == direntDeleted || e.attr &&& longFileName == longFileName

/-- The slots of a directory that a search compares with a name. -/
def visiblePlaces (g : Geometry) (v : Volume) (k : List ℕ) : List (ℕ × ℕ) :=
  ((places g k).takeWhile fun p => (slot v p.1 p.2).name.headD 0 != direntFree).filter
    fun p => !(slot v p.1 p.2).hidden

/-- What a call of `__fat32_search_dir` gives. -/
def Searches (m : Mount) (s : State) (d : ℕ) (name83 : List UInt8) (r : Option Found) : Prop :=
  ∃ fuel t, searchDir m fuel d name83 s = some (r, t)

def shownEntries (g : Geometry) (v : Volume) (d : ℕ) : List Entry :=
  (listedSlots g (v.data d)).map (slot v d)

/-- No two visible entries of a directory have the same name. -/
def DistinctNames (g : Geometry) (v : Volume) (k : List ℕ) : Prop :=
  ∀ p ∈ visiblePlaces g v k, ∀ q ∈ visiblePlaces g v k,
    (slot v p.1 p.2).name = (slot v q.1 q.2).name → p = q

variable {m : Mount} {g : Geometry} {s : State} {v v' : Volume} {d i : ℕ} {k : List ℕ}
  {name83 : List UInt8}

theorem find?_filter_eq {α : Type*} (l : List α) (ends hidden found : α → Bool) :
    (l.find? fun a => ends a || (!hidden a && found a)).filter (fun a => !ends a) =
      ((l.takeWhile fun a => !ends a).filter fun a => !hidden a).find? found := by
  induction l with
  | nil => rfl
  | cons a l ih =>
    cases hends : ends a with
    | true => simp [hends]
    | false =>
      cases hhidden : hidden a with
      | true => simpa [hends, hhidden] using ih
      | false =>
        cases hfound : found a with
        | true => simp [hends, hhidden, hfound]
        | false => simpa [hends, hhidden, hfound] using ih

theorem entrySlot_eq_find? (g : Geometry) (v : Volume) (name83 : List UInt8) (k : List ℕ) :
    entrySlot g v name83 k =
      (visiblePlaces g v k).find? fun p => (slot v p.1 p.2).name == name83 := by
  have hstops : ∀ e : Entry, e.stops name83 =
      (e.name.headD 0 == direntFree || (!e.hidden && e.name == name83)) := by
    intro e
    unfold Entry.stops Entry.hidden
    rw [Bool.not_or]
    rfl
  rw [entrySlot, findSlot_eq_find?]
  simp only [hstops]
  exact find?_filter_eq (places g k) (fun p => (slot v p.1 p.2).name.headD 0 == direntFree)
    (fun p => (slot v p.1 p.2).hidden) fun p => (slot v p.1 p.2).name == name83

theorem searches_iff (hm : Ready m) (hheap : ¬HeapFails m)
    (hk : Chain (volume m s).cells d k) {r : Option Found} :
    Searches m s d name83 r ↔ r = (entrySlot m (volume m s) name83 k).map
      fun p => (slot (volume m s) p.1 p.2).found := by
  obtain ⟨r', t', hrun, -, hfail | hresult⟩ :=
    searchDir_spec hm rfl hk (Nat.lt_succ_self (k.length + 1)) name83
  · exact absurd hfail.2 hheap
  · rw [← hresult]
    constructor
    · rintro ⟨fuel, t, hother⟩
      exact congrArg Prod.fst ((grows_searchDir m d name83).agree hother hrun)
    · rintro rfl
      exact ⟨_, t', hrun⟩

theorem entrySlot_congr (hsame : ∀ c ∈ k, v'.data c = v.data c) :
    entrySlot g v' name83 k = entrySlot g v name83 k := by
  rw [entrySlot, entrySlot, findSlot_congr hsame]
  cases hfind : findSlot g v (Entry.stops name83) k with
  | none => rfl
  | some p =>
    obtain ⟨hp, -, -⟩ := findSlot_eq_some hfind
    rw [Option.filter_some, Option.filter_some, slot, slot, hsame p.1 hp]

theorem visible_of_entrySlot {p : ℕ × ℕ}
    (h : entrySlot g v name83 k = some p) :
    p ∈ visiblePlaces g v k ∧ (slot v p.1 p.2).name = name83 := by
  rw [entrySlot_eq_find?] at h
  have hname := List.find?_some h
  rw [beq_iff_eq] at hname
  exact ⟨mem_of_find?_eq_some h, hname⟩

theorem entrySlot_of_visible {q : ℕ × ℕ} (huniq : DistinctNames g v k)
    (hq : q ∈ visiblePlaces g v k) : entrySlot g v (slot v q.1 q.2).name k = some q := by
  rw [entrySlot_eq_find?]
  cases hfind : (visiblePlaces g v k).find?
      fun p => (slot v p.1 p.2).name == (slot v q.1 q.2).name with
  | none =>
    have hnot := List.find?_eq_none.mp hfind q hq
    rw [beq_self_eq_true] at hnot
    exact absurd rfl hnot
  | some p =>
    have hname := List.find?_some hfind
    rw [beq_iff_eq] at hname
    rw [huniq p (mem_of_find?_eq_some hfind) q hq hname]

theorem mem_places {p : ℕ × ℕ} : p ∈ places g k ↔ p.1 ∈ k ∧ p.2 < calculateMaxDirEntries g := by
  constructor
  · intro hp
    obtain ⟨c, hc, hp⟩ := mem_flatMap.mp hp
    obtain ⟨i, hi, rfl⟩ := mem_map.mp hp
    exact ⟨hc, mem_range.mp hi⟩
  · rintro ⟨hc, hi⟩
    exact mem_flatMap.mpr ⟨p.1, hc, mem_map.mpr ⟨p.2, mem_range.mpr hi, rfl⟩⟩

theorem mem_visiblePlaces {p : ℕ × ℕ} (hp : p ∈ visiblePlaces g v k) :
    p ∈ places g k ∧ (slot v p.1 p.2).name.headD 0 ≠ direntFree ∧
      (slot v p.1 p.2).hidden = false := by
  obtain ⟨htaken, hhidden⟩ := mem_filter.mp hp
  have hhead := mem_takeWhile_imp htaken
  rw [bne_iff_ne] at hhead
  exact ⟨(takeWhile_sublist _).mem htaken, hhead, by simpa using hhidden⟩

theorem places_split (hi : i < calculateMaxDirEntries g) :
    ∃ rest, places g (d :: k) = (List.range i).map (fun j => (d, j)) ++ (d, i) :: rest ∧
      ∀ p ∈ rest, p.1 ∈ k ∨ (p.1 = d ∧ i < p.2) := by
  obtain ⟨n, hn⟩ := Nat.exists_eq_add_of_lt hi
  refine ⟨(List.range n).map (fun j => (d, i + 1 + j)) ++ places g k, ?_, ?_⟩
  · have hrange : List.range (calculateMaxDirEntries g) =
        List.range i ++ i :: (List.range n).map (i + 1 + ·) := by
      rw [hn, add_right_comm, range_add, range_succ, append_assoc]
      rfl
    have hplaces : places g (d :: k) =
        (List.range (calculateMaxDirEntries g)).map (fun i => (d, i)) ++ places g k :=
      flatMap_cons
    rw [hplaces, hrange, map_append, map_cons, map_map, append_assoc]
    rfl
  · intro p hp
    rcases mem_append.mp hp with hp | hp
    · obtain ⟨j, -, rfl⟩ := mem_map.mp hp
      exact .inr ⟨rfl, by omega⟩
    · exact .inl (mem_places.mp hp).1

theorem visiblePlaces_of_free (hnot : d ∉ k) (hi : i < calculateMaxDirEntries g)
    (hfree : (slot v' d i).name.headD 0 = direntFree) (hsame : ∀ j < i, slot v' d j = slot v d j) :
    visiblePlaces g v' (d :: k) =
      (visiblePlaces g v (d :: k)).filter fun p => p.1 == d && decide (p.2 < i) := by
  obtain ⟨rest, hsplit, hrest⟩ := places_split (d := d) (k := k) hi
  have hfront : ∀ p ∈ (List.range i).map (fun j => (d, j)),
      (p.1 == d && decide (p.2 < i)) = true ∧ slot v' p.1 p.2 = slot v p.1 p.2 := by
    intro p hp
    obtain ⟨j, hj, rfl⟩ := mem_map.mp hp
    have hlt := mem_range.mp hj
    exact ⟨by simpa using hlt, hsame j hlt⟩
  have hbehind : ∀ p ∈ (d, i) :: rest, (p.1 == d && decide (p.2 < i)) = false := by
    intro p hp
    rw [Bool.and_eq_false_iff, beq_eq_false_iff_ne, decide_eq_false_iff_not]
    rcases mem_cons.mp hp with rfl | hp
    · exact .inr (lt_irrefl i)
    · rcases hrest p hp with hk | ⟨-, hlt⟩
      · exact .inl fun heq => hnot (heq ▸ hk)
      · exact .inr (by omega)
  rw [visiblePlaces, visiblePlaces, hsplit, filter_comm, filter_takeWhile_front
    (fun p hp => (hfront p hp).1) hbehind, takeWhile_front (by simpa using hfree)
    fun p hp => by rw [(hfront p hp).2]]
  refine filter_congr fun p hp => ?_
  rw [(hfront p ((takeWhile_sublist _).mem hp)).2]

theorem shownEntries_eq (hnot : d ∉ k) : shownEntries g v d =
    ((visiblePlaces g v (d :: k)).filter fun p => p.1 == d &&
      ((slot v p.1 p.2).name != dotName && (slot v p.1 p.2).name != dotDotName)).map
        fun p => slot v p.1 p.2 := by
  obtain ⟨rest, hplaces, hrest⟩ := dirPlaces_cons (g := g) (v := v) (d := d) (k := k)
  have hdir : dirPlaces g v (d :: k) = (visiblePlaces g v (d :: k)).filter fun p =>
      (slot v p.1 p.2).name != dotName && (slot v p.1 p.2).name != dotDotName := by
    rw [dirPlaces, visiblePlaces, filter_filter]
    refine filter_congr fun p _ => ?_
    unfold Entry.skipped Entry.hidden
    rw [Bool.and_comm, Bool.not_or, Bool.not_or, Bool.and_assoc]
    rfl
  have hfst : (dirPlaces g v (d :: k)).filter (fun p => p.1 == d) =
      (listedSlots g (v.data d)).map fun i => (d, i) := by
    rw [hplaces, filter_append, filter_eq_self.mpr, filter_eq_nil_iff.mpr,
      append_nil]
    · intro p hp heq
      exact hnot (beq_iff_eq.mp heq ▸ hrest p hp)
    · intro p hp
      obtain ⟨i, -, rfl⟩ := mem_map.mp hp
      exact beq_self_eq_true d
  rw [← filter_filter, ← hdir, hfst, map_map]
  rfl

end Taavi.Fat
