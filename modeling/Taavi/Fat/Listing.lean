import Mathlib.Data.Int.Init
import Mathlib.Data.List.TakeWhile
import Taavi.Fat.Lookup

/-!
# Listing a directory

`fat32_list_dir` writes a line for each entry in the first cluster of a directory, up to the first
free slot: kind, name and size.
-/

namespace Taavi.Fat

open Lib List

/-- The digits of a number in the order in which `itoa` finds them, from the last one on. -/
def itoaDigits : ℕ → ℤ → List UInt8
  | 0, _ => []
  | fuel + 1, n =>
    if n = 0 then [] else UInt8.ofNat (n.tmod 10 + 48).toNat :: itoaDigits fuel (n.tdiv 10)

/-- `itoa`, for an `int`. The negation of the least one is that number itself. -/
def itoa (n : ℤ) : List UInt8 :=
  if n = 0 then [0x30]
  else if n < 0 then 0x2D :: (itoaDigits 10 ((-n).bmod (2 ^ 32))).reverse
  else (itoaDigits 10 n).reverse

/-- `"ID:D/N:"`. -/
def directoryTag : List UInt8 := [0x49, 0x44, 0x3A, 0x44, 0x2F, 0x4E, 0x3A]

/-- `"ID:F/N:"`. -/
def fileTag : List UInt8 := [0x49, 0x44, 0x3A, 0x46, 0x2F, 0x4E, 0x3A]

/-- `"/S:"`. -/
def sizeTag : List UInt8 := [0x2F, 0x53, 0x3A]

/-- `"/\n"`. -/
def lineEnd : List UInt8 := [0x2F, 0x0A]

/-- The line for an entry. `append_str` stops at a zero, and `itoa` takes the size as an `int`. -/
def Entry.line (e : Entry) : List UInt8 :=
  (if e.attr &&& attrDirectory ≠ 0 then directoryTag else fileTag) ++
    e.name.takeWhile (· != 0) ++ sizeTag ++ itoa ((e.size : ℤ).bmod (2 ^ 32)) ++ lineEnd

/-- The entry has no line: it is deleted, a part of a long name, or that of `.` or `..`. -/
def Entry.skipped (e : Entry) : Bool :=
  e.name.headD 0 == direntDeleted || e.attr &&& longFileName == longFileName ||
    e.name == dotName || e.name == dotDotName

/-- The loop of `fat32_list_dir` over the slots. -/
def listSlots (buf : Memory) : ℕ → ℕ → List UInt8
  | 0, _ => []
  | left + 1, i =>
    if buf (i * direntSize) = direntFree then []
    else if (entryAt buf i).skipped then listSlots buf left (i + 1)
    else (entryAt buf i).line ++ listSlots buf left (i + 1)

def listedSlots (g : Geometry) (buf : Memory) : List ℕ :=
  ((List.range (calculateMaxDirEntries g)).takeWhile
    fun i => buf (i * direntSize) != direntFree).filter fun i => !(entryAt buf i).skipped

section

variable {m : Mount}

/-- `fat32_list_dir`: the text, or nothing where it leaves its out parameters as they are. -/
def listDir (m : Mount) (cluster : ℕ) : Action (Option (List UInt8)) := do
  match ← allocateBuffer m with
  | none => pure none
  | some block =>
    match ← readCluster m cluster with
    | none => do
      kfree block
      pure none
    | some buf => do
      kfree block
      pure (some (listSlots buf (calculateMaxDirEntries m.toGeometry) 0))

theorem listSlots_eq (buf : Memory) (left i : ℕ) : listSlots buf left i =
    ((((List.range' i left).takeWhile fun i => buf (i * direntSize) != direntFree).filter
      fun i => !(entryAt buf i).skipped).map fun i => (entryAt buf i).line).flatten := by
  induction left generalizing i with
  | zero => rfl
  | succ left ih =>
    rw [listSlots, List.range'_succ]
    by_cases hfree : buf (i * direntSize) = direntFree
    · rw [if_pos hfree, takeWhile_cons_of_neg (by simp [hfree])]
      rfl
    · rw [if_neg hfree, takeWhile_cons_of_pos (by simpa using hfree), ih]
      by_cases hskip : (entryAt buf i).skipped = true
      · rw [if_pos hskip, filter_cons_of_neg (by simp [hskip])]
      · rw [if_neg hskip, filter_cons_of_pos (by simpa using hskip), map_cons,
          flatten_cons]

def listing (g : Geometry) (buf : Memory) : List UInt8 :=
  ((listedSlots g buf).map fun i => (entryAt buf i).line).flatten

theorem listDir_spec (hm : Ready m) {d : ℕ} (hd : InRange m d) (s : State) :
    Ends (listDir m d) s fun r t =>
      (r = some (listing m ((volume m s).data d)) ∨ r = none ∧ HeapFails m) ∧
      Effect m s t (volume m s) s.live := by
  refine (allocateBuffer_spec m s).bind ?_
  rintro _ t (⟨rfl, hfail, ht⟩ | ⟨block, rfl, ht⟩)
  · exact ends_pure ⟨.inr ⟨rfl, hfail⟩, ht⟩
  · refine (ht.readCluster hm hd).bind ?_
    rintro _ u ⟨rfl, hu⟩
    refine hu.ends_kfree fun w hw => ⟨.inl ?_, hw⟩
    rw [listSlots_eq, ← range_eq_range']
    rfl

end

variable {g : Geometry} {v : Volume} {d : ℕ} {k : List ℕ}

/-- The slots of some clusters, in their order. -/
def places (g : Geometry) (k : List ℕ) : List (ℕ × ℕ) :=
  k.flatMap fun c => (List.range (calculateMaxDirEntries g)).map fun i => (c, i)

/-- The slots of the entries: up to the first one that was never used, without those that are
deleted, a part of a long name, or for `.` or `..`. -/
def dirPlaces (g : Geometry) (v : Volume) (k : List ℕ) : List (ℕ × ℕ) :=
  ((places g k).takeWhile fun p => (slot v p.1 p.2).name.headD 0 != direntFree).filter
    fun p => !(slot v p.1 p.2).skipped

theorem dirPlaces_cons : ∃ rest, dirPlaces g v (d :: k) =
    (listedSlots g (v.data d)).map (fun i => (d, i)) ++ rest ∧ ∀ p ∈ rest, p.1 ∈ k := by
  let taken : ℕ × ℕ → Bool := fun p => (slot v p.1 p.2).name.headD 0 != direntFree
  let first := (List.range (calculateMaxDirEntries g)).map fun i => (d, i)
  have hlist : (first.takeWhile taken).filter (fun p => !(slot v p.1 p.2).skipped) =
      (listedSlots g (v.data d)).map fun i => (d, i) := by
    rw [takeWhile_map, filter_map]
    rfl
  have hplaces : places g (d :: k) = first ++ places g k := flatMap_cons
  have hfurther : ∀ p ∈ dirPlaces g v k, p.1 ∈ k := by
    intro p hp
    have hmem := (takeWhile_sublist _).mem (mem_of_mem_filter hp)
    obtain ⟨c, hc, hp⟩ := mem_flatMap.mp hmem
    obtain ⟨i, -, rfl⟩ := mem_map.mp hp
    exact hc
  rw [dirPlaces, hplaces, takeWhile_append]
  split_ifs with hall
  · have hwhole : first.takeWhile taken = first := (takeWhile_sublist _).eq_of_length hall
    refine ⟨dirPlaces g v k, ?_, hfurther⟩
    rw [filter_append, ← hlist, hwhole]
    rfl
  · exact ⟨[], by rw [append_nil]; exact hlist, by simp⟩

theorem findSlot_eq_find? (p : Entry → Bool) (k : List ℕ) :
    findSlot g v p k = (places g k).find? fun q => p (slot v q.1 q.2) := by
  induction k with
  | nil => rfl
  | cons c k ih =>
    have hplaces : places g (c :: k) =
        (List.range (calculateMaxDirEntries g)).map (fun i => (c, i)) ++ places g k :=
      flatMap_cons
    have hfst : ((List.range (calculateMaxDirEntries g)).map fun i => (c, i)).find?
        (fun q => p (slot v q.1 q.2)) =
        (firstSlot (calculateMaxDirEntries g) fun i => p (slot v c i)).map fun i => (c, i) :=
      List.find?_map ..
    rw [hplaces, List.find?_append, hfst, findSlot]
    cases firstSlot (calculateMaxDirEntries g) fun i => p (slot v c i) with
    | some i => rfl
    | none => exact ih

theorem entrySlot_of_dirPlaces {filename : List UInt8} {p : ℕ × ℕ} (hp : p ∈ dirPlaces g v k)
    (hname : (slot v p.1 p.2).name = format83 filename)
    (huniq : ∀ q ∈ dirPlaces g v k, (slot v q.1 q.2).name = format83 filename → q = p) :
    entrySlot g v (format83 filename) k = some p := by
  let taken : ℕ × ℕ → Bool := fun p => (slot v p.1 p.2).name.headD 0 != direntFree
  have hmem : p ∈ (places g k).takeWhile taken := mem_of_mem_filter hp
  have htaken : taken p = true := mem_takeWhile_imp hmem
  have hskip : (slot v p.1 p.2).skipped = false := by simpa using of_mem_filter hp
  have hstops : Entry.stops (format83 filename) (slot v p.1 p.2) = true := by
    simp only [Entry.skipped, Bool.or_eq_false_iff, beq_eq_false_iff_ne] at hskip
    obtain ⟨⟨⟨hdel, hlong⟩, -⟩, -⟩ := hskip
    simp only [Entry.stops, Bool.or_eq_true, Bool.and_eq_true, bne_iff_ne, beq_iff_eq]
    exact .inr ⟨⟨hdel, hlong⟩, hname⟩
  have honly : ∀ q ∈ (places g k).takeWhile taken,
      Entry.stops (format83 filename) (slot v q.1 q.2) = true → q = p := by
    intro q hq hstop
    have hfree : ((slot v q.1 q.2).name.headD 0 == direntFree) = false := by
      have htaken' : taken q = true := mem_takeWhile_imp hq
      simpa [taken] using htaken'
    simp only [Entry.stops, hfree, Bool.false_or, Bool.and_eq_true, bne_iff_ne, beq_iff_eq] at hstop
    obtain ⟨⟨hdel, hlong⟩, hsame⟩ := hstop
    have hhead := format83_head filename
    rw [← hsame] at hhead
    have hdot : (slot v q.1 q.2).name ≠ dotName := fun h => hhead (by rw [h]; rfl)
    have hdotDot : (slot v q.1 q.2).name ≠ dotDotName := fun h => hhead (by rw [h]; rfl)
    refine huniq q (mem_filter.mpr ⟨hq, ?_⟩) hsame
    simp only [Entry.skipped, Bool.not_eq_true', Bool.or_eq_false_iff, beq_eq_false_iff_ne]
    exact ⟨⟨⟨hdel, hlong⟩, hdot⟩, hdotDot⟩
  rw [entrySlot, findSlot_eq_find?, find?_of_mem_takeWhile hmem hstops honly, Option.filter_some,
    if_pos htaken]

end Taavi.Fat
