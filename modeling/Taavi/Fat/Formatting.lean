import Taavi.User.RoundTrip

/-!
# The 8.3 form of a name

`__fat32_format_83` of `kernel/fs/fat32/fat32helpers.c` with its loops and its buffer. The bytes are
those of `format83`, and two valid names have the same ones if and only if they differ in case only.
-/

namespace Taavi.Fat

open Lib List
open User (ShortName isNameChar paddedName)

section

variable (filename : List UInt8)

/-- The search for a dot, whose counter has eight bits. -/
def indexOfDot : ℕ → ℕ → Option (Option ℕ)
  | 0, _ => none
  | fuel + 1, i =>
    if i < filename.length then
      if filename.getD i 0 = dot then some (some i) else indexOfDot fuel ((i + 1) % 2 ^ 8)
    else some none

/-- A loop that copies characters from `src` on to `base` while `more` holds of the counter. -/
def copyLoop (src base : ℕ) (more : ℕ → Bool) : ℕ → ℕ → Memory → Option Memory
  | 0, _, _ => none
  | fuel + 1, i, dst =>
    if more i then
      copyLoop src base more fuel ((i + 1) % 2 ^ 8)
        (assign dst (base + i) (toUpper (filename.getD (src + i) 0)))
    else some dst

/-- `__fat32_format_83`. The byte after a string is zero. -/
def fat32Format83 (fuel : ℕ) (dst : Memory) : Option Memory :=
  let dst := fun i => if i < 11 then pad83 else dst i
  match indexOfDot filename fuel 0 with
  | none => none
  | some none => copyLoop filename 0 0 (fun i => i < filename.length && i != 8) fuel 0 dst
  | some (some k) => (copyLoop filename 0 0 (fun i => i < k && i != 8) fuel 0 dst).bind
    (copyLoop filename (k + 1) 8 (fun i => i < 3 && filename.getD (k + 1 + i) 0 != 0) fuel 0)

variable {filename} {fuel i : ℕ}

theorem indexOfDot_eq (hlen : filename.length < 2 ^ 8) (hi : i ≤ filename.length)
    (hfuel : filename.length - i < fuel) :
    indexOfDot filename fuel i = some (((filename.drop i).findIdx? (· == dot)).map (· + i)) := by
  induction fuel generalizing i with
  | zero => omega
  | succ fuel ih =>
    unfold indexOfDot
    split_ifs with hlt hdot
    · rw [getD_eq_getElem _ _ hlt] at hdot
      rw [drop_eq_getElem_cons hlt, List.findIdx?_cons, hdot]
      simp
    · rw [getD_eq_getElem _ _ hlt] at hdot
      rw [Nat.mod_eq_of_lt (by omega), ih (by omega) (by omega), drop_eq_getElem_cons hlt,
        List.findIdx?_cons, if_neg (by simpa using hdot), Option.map_map]
      congr 2
      funext k
      simp only [Function.comp_apply]
      omega
    · rw [drop_of_length_le (by omega)]
      rfl

/-- A loop that goes on below `last` copies that many characters and nothing else. -/
theorem copyLoop_eq {src base last : ℕ} {more : ℕ → Bool}
    (hmore : ∀ i ≤ last, more i = decide (i < last)) (hlast : last < 2 ^ 8) (hi : i ≤ last)
    (hfuel : last - i < fuel) (dst : Memory) :
    ∃ dst', copyLoop filename src base more fuel i dst = some dst' ∧
      ∀ x, dst' x = if base + i ≤ x ∧ x < base + last then
        toUpper (filename.getD (src + (x - base)) 0) else dst x := by
  induction fuel generalizing i dst with
  | zero => omega
  | succ fuel ih =>
    unfold copyLoop
    rw [hmore i hi]
    by_cases hlt : i < last
    · obtain ⟨dst', hloop, hdst⟩ := ih (i := i + 1) (by omega) (by omega)
        (assign dst (base + i) (toUpper (filename.getD (src + i) 0)))
      rw [if_pos (by simpa using hlt), Nat.mod_eq_of_lt (by omega), hloop]
      refine ⟨dst', rfl, fun x => ?_⟩
      rw [hdst, assign_apply]
      by_cases hx : x = base + i
      · rw [if_neg (by omega), if_pos hx, if_pos (by omega),
          show src + (x - base) = src + i by omega]
      · rw [if_neg hx]
        exact if_congr (by omega) rfl rfl
    · rw [if_neg (by simpa using hlt)]
      exact ⟨dst, rfl, fun x => (if_neg (by omega)).symm⟩

theorem at_padded {base n : ℕ} {l : List UInt8} {dst : Memory}
    (h : ∀ i < n, dst (base + i) = if i < l.length then toUpper (l.getD i 0) else pad83) :
    dst.At base (padded n (l.take n)) := by
  have hlen : (l.take n).length = min n l.length := length_take
  refine Memory.at_append.mpr ⟨Memory.at_of_getD fun i hi => ?_, User.at_replicate.mpr ?_⟩
  · rw [length_map] at hi
    rw [h i (by omega), if_pos (by omega), getD_eq_getElem _ _ (show i < l.length by omega),
      getD_eq_getElem _ _ (by rwa [length_map]), getElem_map, getElem_take]
  · rw [length_map]
    intro k hlo hhi
    obtain ⟨i, rfl⟩ := Nat.exists_eq_add_of_le (show base ≤ k by omega)
    rw [h i (by omega), if_neg (by omega)]

theorem length_padded (n : ℕ) (l : List UInt8) : (padded n (l.take n)).length = n := by
  simp only [padded, length_append, length_map, length_take, length_replicate]
  omega

/-- The function returns, and it has written the eleven bytes of the formatted name. -/
theorem fat32Format83_eq (hzero : 0 ∉ filename) (hlen : filename.length ≤ 12) (hfuel : 12 < fuel)
    (dst : Memory) : ∃ dst', fat32Format83 filename fuel dst = some dst' ∧
      dst'.At 0 (format83 filename) ∧ ∀ i, 11 ≤ i → dst' i = dst i := by
  have hsearch := indexOfDot_eq (show filename.length < 2 ^ 8 by omega) (Nat.zero_le _)
    (show filename.length - 0 < fuel by omega)
  have hname {n : ℕ} (hn : n ≤ filename.length) (dst : Memory) :=
    @copyLoop_eq filename fuel 0 0 0 (min n 8) (fun i => decide (i < n) && i != 8)
      (by intro i hi; rw [Bool.eq_iff_iff]; simp; omega) (by omega) (by omega) (by omega) dst
  unfold fat32Format83 format83
  rw [hsearch, drop_zero]
  cases hdot : filename.findIdx? (· == dot) with
  | none =>
    obtain ⟨dst', hloop, hdst⟩ := hname le_rfl fun i => if i < 11 then pad83 else dst i
    refine ⟨dst', hloop, Memory.at_append.mpr ⟨at_padded fun i hi => ?_, ?_⟩, fun i hi => ?_⟩
    · simp only [hdst, zero_add, Nat.sub_zero]
      split_ifs <;> first | rfl | omega
    · rw [length_padded, User.at_replicate]
      intro i hlo hhi
      rw [hdst, if_neg (by omega), if_pos (by omega)]
    · rw [hdst, if_neg (by omega), if_neg (by omega)]
  | some k =>
    have hk : k < filename.length := (List.findIdx?_eq_some_iff_getElem.mp hdot).1
    have hmore : ∀ i ≤ min (filename.length - (k + 1)) 3,
        (decide (i < 3) && filename.getD (k + 1 + i) 0 != 0) =
          decide (i < min (filename.length - (k + 1)) 3) := by
      intro i hi
      rw [Bool.eq_iff_iff]
      by_cases hin : k + 1 + i < filename.length
      · have hchar : filename[k + 1 + i] ≠ 0 := fun h => hzero (h ▸ getElem_mem hin)
        simp [hin, hchar]
        omega
      · simp [hin]
        omega
    obtain ⟨dst₁, hloop₁, hdst₁⟩ := hname hk.le fun i => if i < 11 then pad83 else dst i
    obtain ⟨dst₂, hloop₂, hdst₂⟩ :=
      @copyLoop_eq filename fuel 0 (k + 1) 8 _ _ hmore (by omega) (by omega) (by omega) dst₁
    refine ⟨dst₂, ?_, Memory.at_append.mpr ⟨at_padded fun i hi => ?_, at_padded fun i hi => ?_⟩,
      fun i hi => ?_⟩
    · simp only [Option.map_some, add_zero, hloop₁, Option.bind_some]
      exact hloop₂
    · have htake (hlt : i < k) : (filename.take k).getD i 0 = filename.getD i 0 := by
        simp only [getD_eq_getElem?_getD, List.getElem?_take_of_lt hlt]
      simp only [hdst₂, hdst₁, length_take, zero_add, Nat.sub_zero]
      split_ifs <;> first | rfl | omega | rw [htake (by omega)]
    · have hdrop : (filename.drop (k + 1)).getD i 0 = filename.getD (k + 1 + i) 0 := by
        simp only [getD_eq_getElem?_getD, List.getElem?_drop]
      simp only [length_padded, hdst₂, hdst₁, hdrop, length_drop, zero_add, Nat.sub_zero,
        Nat.add_sub_cancel_left]
      split_ifs <;> first | rfl | omega
    · rw [hdst₂, if_neg (by omega), hdst₁, if_neg (by omega), if_neg (by omega)]

end

variable {a b : List UInt8} {n n' : ShortName}

theorem toUpper_toUpper (c : UInt8) : toUpper (toUpper c) = toUpper c := by
  by_cases hlower : (0x61 ≤ c && c ≤ 0x7A) = true
  · have hupper : toUpper c = c - 0x20 := if_pos hlower
    rw [hupper]
    refine if_neg ?_
    simp only [Bool.and_eq_true, decide_eq_true_eq, UInt8.le_iff_toNat_le] at hlower ⊢
    rw [UInt8.toNat_sub_of_le _ _ (by rw [UInt8.le_iff_toNat_le]; simp at hlower ⊢; omega)]
    simp at hlower ⊢
    omega
  · have hupper : toUpper c = c := if_neg hlower
    rw [hupper, hupper]

theorem format83_map_toUpper (a : List UInt8) : format83 (a.map toUpper) = format83 a := by
  have hdot : ((· == dot) ∘ toUpper) = (· == dot) := by
    funext c
    by_cases hc : c = dot
    · rw [hc]
      rfl
    · simp [hc, toUpper_ne_dot hc]
  have hpadded (k : ℕ) (chars : List UInt8) : padded k (chars.map toUpper) = padded k chars := by
    simp [padded, toUpper_toUpper]
  unfold format83
  rw [List.findIdx?_map, hdot]
  simp only [← map_take, ← map_drop, hpadded]

/-- For all valid names in any case: the bytes are the upper case ones padded with blanks, and the
same if and only if the names are the same up to case. The function writes these bytes only. -/
theorem format83_is_canonical (ha : a.map toUpper = n.text) (hb : b.map toUpper = n'.text) :
    (format83 a = format83 b ↔ a.map toUpper = b.map toUpper) ∧
    format83 a = paddedName n.stem n.ext ∧
    ∀ filename, 0 ∉ filename → filename.length ≤ 12 → ∀ fuel, 12 < fuel → ∀ dst,
      ∃ dst', fat32Format83 filename fuel dst = some dst' ∧
        dst'.At 0 (format83 filename) ∧ ∀ i, 11 ≤ i → dst' i = dst i := by
  refine ⟨⟨fun h => ?_, fun h => ?_⟩, ?_, fun filename hzero hlength fuel hfuel dst => ?_⟩
  · rw [ha, hb]
    refine User.text_injective ?_
    rw [← ha, ← hb, format83_map_toUpper, format83_map_toUpper, h]
  · rw [← format83_map_toUpper a, h, format83_map_toUpper]
  · rw [← format83_map_toUpper a, ha, User.format83_text]
  · exact fat32Format83_eq hzero hlength hfuel dst

/-- `a.TXT` and `A.txt`. -/
theorem mixed_case_names_agree :
    format83 [97, 46, 84, 88, 84] = format83 [65, 46, 116, 120, 116] :=
  (@format83_is_canonical _ _ User.shortStem User.shortStem rfl rfl).1.mpr rfl

end Taavi.Fat
