import Taavi.Fat.Dir
import Taavi.Fat.Volume

/-!
# Entries of directories

The entry in a slot of a buffer, and what the changes of a buffer do to the entries of all its
slots.
-/

namespace Lib.Memory

theorem read_splice {m src : Memory} {a n k width : ℕ} (h : k + width ≤ n) :
    read (m.splice a src n) (a + k) width = read src k width := by
  induction width generalizing k with
  | zero => rfl
  | succ width ih =>
    rw [read, read, add_assoc, ih (by omega), splice, if_pos (by omega),
      Nat.add_sub_cancel_left]

theorem splice_of_disjoint {m src : Memory} {a n x : ℕ} (h : x < a ∨ a + n ≤ x) :
    m.splice a src n x = m x := by
  rw [splice, if_neg (by omega)]

end Lib.Memory

namespace Taavi.Fat

open Lib List

/-- What the file system reads of an entry. -/
@[ext] structure Entry where
  name : List UInt8
  attr : UInt8
  cluster : ℕ
  size : ℕ
  deriving DecidableEq, Repr

def entryAt (buf : Memory) (i : ℕ) : Entry :=
  ⟨entryName buf i, entryAttr buf i, entryCluster buf i, entrySize buf i⟩

/-- The slot is free or deleted. -/
def Entry.unused (e : Entry) : Bool :=
  e.name.headD 0 == direntFree || e.name.headD 0 == direntDeleted

def dotName : List UInt8 := dot :: List.replicate 10 pad83

def dotDotName : List UInt8 := dot :: dot :: List.replicate 9 pad83

/-- The slot is in use, by an entry other than `.` and `..`. -/
def Entry.Live (e : Entry) : Prop :=
  e.unused = false ∧ e.name ≠ dotName ∧ e.name ≠ dotDotName

instance (e : Entry) : Decidable e.Live := instDecidableAnd

def Entry.IsDir (e : Entry) : Prop := e.attr &&& attrDirectory ≠ 0

instance (e : Entry) : Decidable e.IsDir := instDecidableNot

section

variable {buf buf' : Memory} {i : ℕ}

theorem entryName_head (buf : Memory) (i : ℕ) :
    (entryAt buf i).name.headD 0 = buf (i * direntSize) := rfl

theorem entryAt_unused (buf : Memory) (i : ℕ) : (entryAt buf i).unused = isUnused buf i := rfl

theorem isDirectoryNamed_iff {name83 : List UInt8} : isDirectoryNamed buf i name83 = true ↔
    (entryAt buf i).unused = false ∧ (entryAt buf i).name = name83 ∧ (entryAt buf i).IsDir := by
  simp only [isDirectoryNamed, Bool.and_eq_true, Bool.not_eq_true', beq_iff_eq, bne_iff_ne, ne_eq,
    Entry.IsDir, and_assoc]
  rfl

theorem entryAt_congr (h : ∀ k < direntSize, buf' (i * direntSize + k) = buf (i * direntSize + k)) :
    entryAt buf' i = entryAt buf i := by
  have hread : ∀ k width, k + width ≤ direntSize →
      buf'.read (i * direntSize + k) width = buf.read (i * direntSize + k) width := by
    intro k width hk
    refine Memory.read_congr fun x hlo hhi => ?_
    obtain ⟨y, rfl⟩ := Nat.exists_eq_add_of_le hlo
    rw [add_assoc]
    exact h (k + y) (by omega)
  have hsize : direntSize = 32 := rfl
  ext1
  · refine map_congr_left fun k hk => h k ?_
    have hlt := mem_range.mp hk
    omega
  · exact h 11 (by decide)
  · show _ * 2 ^ 16 + _ = _ * 2 ^ 16 + _
    rw [hread 20 2 (by decide), hread 26 2 (by decide)]
  · exact hread 28 4 (by decide)

theorem entryAt_clip (g : Geometry) (hi : i < calculateMaxDirEntries g) :
    entryAt (clip g buf) i = entryAt buf i := by
  refine entryAt_congr fun k hk => if_pos ?_
  unfold calculateMaxDirEntries direntSize at hi
  unfold clusterSize
  unfold direntSize at hk ⊢
  omega

theorem entryAt_zero_unused (i : ℕ) : (entryAt (fun _ => 0) i).unused = true := rfl

end

section

variable {buf : Memory} {i j n : ℕ}

variable {name83 : List UInt8} {attributes : UInt8} {cluster : ℕ}

theorem entryAt_of_ne {buf' : Memory} (hne : j ≠ i)
    (h : ∀ x, x < i * direntSize ∨ i * direntSize + direntSize ≤ x → buf' x = buf x) :
    entryAt buf' j = entryAt buf j := by
  refine entryAt_congr fun k hk => h _ ?_
  unfold direntSize at hk ⊢
  omega

theorem newEntry_read
    (hname : name83.length = 11) (hclus : cluster < 2 ^ 32) :
    entryAt (newEntry name83 attributes cluster) 0 = ⟨name83, attributes, cluster, 0⟩ := by
  have hbyte : ∀ k < 20, newEntry name83 attributes cluster k =
      if k < 11 then name83.getD k 0 else if k = 11 then attributes else 0 := by
    intro k hk
    rw [newEntry, Memory.write_of_disjoint (by omega), Memory.write_of_disjoint (by omega)]
  have hsize : (newEntry name83 attributes cluster).read 28 4 = 0 := by
    rw [newEntry, Memory.read_write_of_disjoint (by decide),
      Memory.read_write_of_disjoint (by decide)]
    rfl
  ext1
  · refine ext_getElem (by simp [entryAt, entryName, hname]) fun k hk hk' => ?_
    have hlt : k < 11 := hname ▸ hk'
    simp only [entryAt, entryName, getElem_map, getElem_range, zero_mul, zero_add]
    rw [hbyte k (by omega), if_pos hlt]
    simp [hname, hlt]
  · exact hbyte 11 (by decide)
  · show _ * 2 ^ 16 + _ = cluster
    have hhigh : (newEntry name83 attributes cluster).read (0 * direntSize + 20) 2 =
        cluster / 2 ^ 16 := by
      rw [newEntry, Memory.read_write_of_disjoint (by decide)]
      show Memory.read _ 20 2 = _
      rw [Memory.read_write_same, Nat.mod_eq_of_lt (by omega)]
    have hlow : (newEntry name83 attributes cluster).read (0 * direntSize + 26) 2 =
        cluster % 2 ^ 16 := Memory.read_write_same ..
    rw [hhigh, hlow]
    omega
  · exact hsize

theorem entryAt_withEntry
    (hname : name83.length = 11) (hclus : cluster < 2 ^ 32) :
    entryAt (withEntry buf i name83 attributes cluster) j =
      if j = i then ⟨name83, attributes, cluster, 0⟩ else entryAt buf j := by
  by_cases hji : j = i
  · subst hji
    rw [if_pos rfl, ← newEntry_read hname hclus]
    have hbyte : ∀ k < direntSize, withEntry buf j name83 attributes cluster (j * direntSize + k) =
        newEntry name83 attributes cluster k := by
      intro k hk
      rw [withEntry, Memory.splice, if_pos (by omega), Nat.add_sub_cancel_left]
    have hread : ∀ k width, k + width ≤ direntSize →
        (withEntry buf j name83 attributes cluster).read (j * direntSize + k) width =
          (newEntry name83 attributes cluster).read k width :=
      fun k width hk => Memory.read_splice hk
    ext1
    · refine map_congr_left fun k hk => ?_
      have hlt := mem_range.mp hk
      exact hbyte k (by unfold direntSize; omega)
    · exact hbyte 11 (by decide)
    · show _ * 2 ^ 16 + _ = _ * 2 ^ 16 + _
      rw [hread 20 2 (by decide), hread 26 2 (by decide)]
      rfl
    · exact hread 28 4 (by decide)
  · rw [if_neg hji]
    exact entryAt_of_ne hji fun x hx => Memory.splice_of_disjoint hx

theorem entryAt_withFreeEntry_self : (entryAt (withFreeEntry buf i) i).unused = true := by
  rw [entryAt_unused, isUnused, withFreeEntry, assign_same]
  rfl

theorem entryAt_withFreeEntry_of_ne (hne : j ≠ i) :
    entryAt (withFreeEntry buf i) j = entryAt buf j := by
  refine entryAt_of_ne hne fun x hx => assign_of_ne _ _ ?_
  unfold direntSize at hx ⊢
  omega

theorem entryAt_allFree (hi : i < n) : (entryAt (allFree n buf) i).unused = true := by
  rw [entryAt_unused, isUnused, allFree, if_pos]
  · rfl
  · unfold direntSize
    omega

theorem entryAt_write_size {size : ℕ} :
    entryAt (buf.write (i * direntSize + 28) 4 size) j =
      if j = i then { entryAt buf i with size := size % 2 ^ 32 } else entryAt buf j := by
  by_cases hji : j = i
  · subst hji
    rw [if_pos rfl]
    have hread : ∀ k width, k + width ≤ 28 →
        (buf.write (j * direntSize + 28) 4 size).read (j * direntSize + k) width =
          buf.read (j * direntSize + k) width :=
      fun k width hk => Memory.read_write_of_disjoint (by omega)
    ext1
    · refine map_congr_left fun k hk => Memory.write_of_disjoint ?_
      have hlt := mem_range.mp hk
      omega
    · exact Memory.write_of_disjoint (by omega)
    · show _ * 2 ^ 16 + _ = _ * 2 ^ 16 + _
      rw [hread 20 2 (by decide), hread 26 2 (by decide)]
    · exact Memory.read_write_same ..
  · rw [if_neg hji]
    refine entryAt_of_ne hji fun x hx => Memory.write_of_disjoint ?_
    unfold direntSize at hx ⊢
    omega

end

theorem format83_length (filename : List UInt8) : (format83 filename).length = 11 := by
  have hpadded : ∀ n (chars : List UInt8), chars.length ≤ n → (padded n chars).length = n := by
    intro n chars h
    simp [padded]
    omega
  unfold format83
  cases filename.findIdx? (· == dot) with
  | none => simp [hpadded 8 (filename.take 8) (length_take_le ..)]
  | some k =>
    simp [hpadded 8 ((filename.take k).take 8) (length_take_le ..),
      hpadded 3 ((filename.drop (k + 1)).take 3) (length_take_le ..)]

theorem toUpper_ne_dot {c : UInt8} (hc : c ≠ dot) : toUpper c ≠ dot := by
  unfold toUpper
  split_ifs with hlower
  · intro heq
    have hvalue : c = 0x2E + 0x20 := by rw [← UInt8.sub_eq_iff_eq_add, heq]; rfl
    simp [hvalue] at hlower
  · exact hc

theorem format83_head (filename : List UInt8) : (format83 filename).headD 0 ≠ dot := by
  cases filename with
  | nil => decide
  | cons c rest =>
    by_cases hc : c = dot
    · -- the name is empty
      simp [format83, List.findIdx?_cons, hc, padded, dot, pad83, List.replicate]
    · have hupper := toUpper_ne_dot hc
      cases hfind : rest.findIdx? (· == dot) <;>
        simpa [format83, List.findIdx?_cons, hc, hfind, padded] using hupper

end Taavi.Fat
