import Mathlib.Data.Nat.Digits.Defs
import Taavi.Fat.Listing
import Taavi.User.DirentNames

/-!
# Reading a listing back

What `list_dirents` makes of the lines of `fat32_list_dir`: each line gives an entry with the name
that `listedName` describes, the kind and the size.
-/

namespace Taavi.User

open Lib List

variable {buf : Memory} {a left : ℕ} {info : DirentInfo} {chars stem ext : List UInt8}

section

variable {n d : ℕ}

theorem itoaDigits_eq {fuel : ℕ} (hn : n < 10 ^ fuel) :
    Fat.itoaDigits fuel n = (Nat.digits 10 n).map fun d => UInt8.ofNat (d + 48) := by
  induction fuel generalizing n with
  | zero =>
    obtain rfl : n = 0 := by simpa using hn
    rfl
  | succ fuel ih =>
    rw [Fat.itoaDigits]
    by_cases hzero : n = 0
    · subst hzero
      rfl
    · have hmod : ((n : ℤ).tmod 10 + 48).toNat = n % 10 + 48 := by
        rw [Int.tmod_eq_emod_of_nonneg (Int.natCast_nonneg n)]
        omega
      have hdiv : (n : ℤ).tdiv 10 = ((n / 10 : ℕ) : ℤ) := by
        rw [Int.tdiv_eq_ediv_of_nonneg (Int.natCast_nonneg n)]
        omega
      have hlt : n / 10 < 10 ^ fuel := Nat.div_lt_of_lt_mul (by rwa [pow_succ'] at hn)
      rw [if_neg (by exact_mod_cast hzero), hmod, hdiv, ih hlt,
        Nat.digits_def' (by decide) (Nat.pos_of_ne_zero hzero), map_cons]

theorem itoa_eq (hn : n < 2 ^ 31) : Fat.itoa n =
    if n = 0 then [0x30] else ((Nat.digits 10 n).map fun d => UInt8.ofNat (d + 48)).reverse := by
  unfold Fat.itoa
  by_cases hzero : n = 0
  · rw [if_pos hzero, if_pos (by exact_mod_cast hzero)]
  · rw [if_neg hzero, if_neg (by exact_mod_cast hzero), if_neg (by omega),
      itoaDigits_eq (hn.trans (by decide))]

theorem isDigit_ofNat (hd : d < 10) : isDigit (UInt8.ofNat (d + 48)) = true := by
  revert d
  decide

theorem toNat_digit (hd : d < 10) : (UInt8.ofNat (d + 48)).toNat - 48 = d := by
  revert d
  decide

theorem isDigit_of_mem_itoa (hn : n < 2 ^ 31) {c : UInt8} (hc : c ∈ Fat.itoa n) :
    isDigit c = true := by
  rw [itoa_eq hn] at hc
  split_ifs at hc with hzero
  · obtain rfl := mem_singleton.mp hc
    rfl
  · rw [mem_reverse, mem_map] at hc
    obtain ⟨d, hd, rfl⟩ := hc
    exact isDigit_ofNat (Nat.digits_lt_base (by decide) hd)

theorem ne_of_isDigit {c : UInt8} (hc : isDigit c = true) :
    c ≠ 0 ∧ c ≠ blank ∧ c ≠ newline ∧ c ≠ slash := by
  refine ⟨?_, ?_, ?_, ?_⟩ <;> rintro rfl <;> exact absurd hc (by decide)

theorem atoi_itoa (hn : n < 2 ^ 31) : atoi (Fat.itoa n) = n := by
  have hdigits : ∀ c ∈ Fat.itoa n, isDigit c = true := fun c => isDigit_of_mem_itoa hn
  have hdrop : (Fat.itoa n).dropWhile (· == blank) = Fat.itoa n := by
    cases htext : Fat.itoa n with
    | nil => rfl
    | cons c rest =>
      have hc := (ne_of_isDigit (hdigits c (by rw [htext]; exact mem_cons_self))).2.1
      rw [dropWhile_cons_of_neg (by simpa using hc)]
  have htake : (Fat.itoa n).takeWhile isDigit = Fat.itoa n := by
    rw [takeWhile_eq_self_iff]
    exact hdigits
  have hvalue : (Fat.itoa n).foldl (fun res c => res * 10 + (c.toNat - 48)) 0 = n := by
    rw [itoa_eq hn]
    split_ifs with hzero
    · subst hzero
      rfl
    · rw [foldl_reverse, foldr_map]
      calc ((Nat.digits 10 n).foldr (fun d res => res * 10 + ((UInt8.ofNat (d + 48)).toNat - 48)) 0)
          = (Nat.digits 10 n).foldr (fun d res => d + 10 * res) 0 := by
            refine foldr_ext _ _ 0 fun d hd res => ?_
            rw [toNat_digit (Nat.digits_lt_base (by decide) hd), add_comm, mul_comm]
        _ = Nat.ofDigits 10 (Nat.digits 10 n) := by
            rw [Nat.ofDigits_eq_foldr]
            rfl
        _ = n := Nat.ofDigits_digits 10 n
  rw [atoi, hdrop, htake, hvalue, Nat.mod_eq_of_lt (hn.trans (by decide))]

end

theorem skipBlanks_of_ne {fuel : ℕ} {c : UInt8} (ha : buf a = c) (hc : c ≠ blank ∧ c ≠ tab) :
    skipBlanks buf fuel a = a := by
  cases fuel with
  | zero => rfl
  | succ fuel => rw [skipBlanks, ha, if_neg (by simp [hc])]

theorem readSegment_nil (hzero : buf a = 0) : readSegment buf a info = (buf, info) := by
  have hskip : skipBlanks buf bufSize a = a := skipBlanks_of_ne hzero (by decide)
  have hempty : buf.string bufSize a = [] := Memory.string_eq trivial hzero (by simp) (by decide)
  simp only [readSegment, hskip, hempty, if_true]

theorem readSegment_id {kind : UInt8} (hat : buf.At a (idTag ++ [kind])) (hkind : kind ≠ 0)
    (hend : buf (a + 4) = 0) :
    readSegment buf a info =
      (buf, { info with type := if kind = 0x44 then .directory else .file }) := by
  have hskip : skipBlanks buf bufSize a = a := skipBlanks_of_ne hat.1 (by decide)
  have hzero : (0 : UInt8) ∉ idTag ++ [kind] := by
    simp [idTag, hkind.symm]
  have hseg : buf.string bufSize a = idTag ++ [kind] :=
    Memory.string_eq hat hend hzero (by simp [idTag, bufSize])
  have hid : idTag.isPrefixOf (idTag ++ [kind]) = true := by simp
  have hname : nameTag.isPrefixOf (idTag ++ [kind]) = false := rfl
  have hsize : sizeTag.isPrefixOf (idTag ++ [kind]) = false := rfl
  have hget : (idTag ++ [kind]).getD 3 0 = kind := rfl
  have hne : idTag ++ [kind] ≠ [] := by simp
  simp only [readSegment, hskip, hseg, hid, hname, hsize, hget, hne, if_true, if_false,
    Bool.false_eq_true]

theorem readSegment_size (hat : buf.At a (sizeTag ++ chars)) (hzero : (0 : UInt8) ∉ chars)
    (hlen : chars.length < 500) (hend : buf (a + 2 + chars.length) = 0) :
    readSegment buf a info = (buf, { info with size := atoi chars }) := by
  have hskip : skipBlanks buf bufSize a = a := skipBlanks_of_ne hat.1 (by decide)
  have hzero' : (0 : UInt8) ∉ sizeTag ++ chars := by
    simp [sizeTag, hzero]
  have hlen' : (sizeTag ++ chars).length = 2 + chars.length := by
    rw [length_append]
    rfl
  have hseg : buf.string bufSize a = sizeTag ++ chars := by
    refine Memory.string_eq hat ?_ hzero' (by rw [hlen', bufSize]; omega)
    rwa [hlen', ← add_assoc]
  have hid : idTag.isPrefixOf (sizeTag ++ chars) = false := rfl
  have hname : nameTag.isPrefixOf (sizeTag ++ chars) = false := rfl
  have hsize : sizeTag.isPrefixOf (sizeTag ++ chars) = true := by simp
  have hdrop : (sizeTag ++ chars).drop 2 = chars := rfl
  have hne : sizeTag ++ chars ≠ [] := by simp [sizeTag]
  simp only [readSegment, hskip, hseg, hid, hname, hsize, hdrop, hne, if_true, if_false,
    Bool.false_eq_true]

theorem readSegment_name (hat : buf.At a nameTag) (hname : NameAt buf (a + 2) stem ext)
    (hstem : Plain stem) (hext : Plain ext) (hlstem : stem.length ≤ 8) (hlext : ext.length ≤ 3) :
    readSegment buf a info = (formatDirents (a + 2) 11 buf,
      { info with name := copyName info.name (formattedName stem ext) }) := by
  have hfst : buf a = 0x4E := hat.1
  have hskip : skipBlanks buf bufSize a = a := skipBlanks_of_ne hfst (by decide)
  obtain ⟨hat', hlast⟩ := (nameAt_iff hlstem hlext).mp hname
  have hlen := length_paddedName hlstem hlext
  have hzero := zero_not_mem_paddedName hstem hext
  have hbytes : buf.string bufSize (a + 2) = paddedName stem ext :=
    Memory.string_eq hat' (by rwa [hlen]) hzero (by rw [hlen]; decide)
  have hseg : buf.string bufSize a = nameTag ++ paddedName stem ext := by
    refine Memory.string_eq (Memory.at_append.mpr ⟨hat, hat'⟩) ?_ ?_ ?_
    · rw [length_append, hlen]
      exact hlast
    · simp [nameTag, hzero]
    · rw [length_append, hlen]
      decide
  -- the first letter is before the name
  have hletter : (formatDirents (a + 2) 11 buf).string bufSize a =
      0x4E :: (formatDirents (a + 2) 11 buf).string 511 (a + 1) := by
    have hsame : formatDirents (a + 2) 11 buf a = 0x4E :=
      (formatLoop_of_disjoint (.inl (by omega))).trans hfst
    rw [show bufSize = 511 + 1 from rfl, Memory.string, hsame, if_neg (by decide)]
  have hid : idTag.isPrefixOf (nameTag ++ paddedName stem ext) = false := rfl
  have hname' : nameTag.isPrefixOf (nameTag ++ paddedName stem ext) = true := by simp
  have hsize : sizeTag.isPrefixOf
      (0x4E :: (formatDirents (a + 2) 11 buf).string 511 (a + 1)) = false := rfl
  have hne : nameTag ++ paddedName stem ext ≠ [] := by simp [nameTag]
  have hformatted := string_formatDirents hname hstem hext hlstem hlext
  simp only [readSegment, hskip, hseg, hid, hname', hbytes, hlen, hletter, hsize, hformatted,
    hne, if_true, if_false, Bool.false_eq_true]

theorem segmentLoop_of_segment {start : ℕ} (hat : buf.At a chars)
    (hchars : ∀ c ∈ chars, c ≠ slash ∧ c ≠ 0)
    (hend : buf (a + chars.length) = slash ∨ buf (a + chars.length) = 0) :
    segmentLoop (chars.length + 1 + left) a start buf info =
      segmentLoop left (a + chars.length + 1) (a + chars.length + 1)
        (readSegment (assign buf (a + chars.length) 0) start info).1
        (readSegment (assign buf (a + chars.length) 0) start info).2 := by
  induction chars generalizing a with
  | nil =>
    replace hend : buf a = slash ∨ buf a = 0 := hend
    rw [length_nil, zero_add, add_comm 1, segmentLoop, if_pos hend]
    rfl
  | cons c chars ih =>
    obtain ⟨hc, hrest⟩ := hat
    obtain ⟨hslash, hzero⟩ := hchars c mem_cons_self
    rw [length_cons, ← add_assoc, add_right_comm] at hend
    rw [length_cons, show chars.length + 1 + 1 + left = chars.length + 1 + left + 1 by omega,
      segmentLoop, hc, if_neg (by simp [hslash, hzero]),
      ih hrest (fun d hd => hchars d (mem_cons_of_mem c hd)) hend,
      show a + 1 + chars.length = a + (chars.length + 1) by omega]

variable {kind : UInt8} {digits : List UInt8} {slots : List DirentInfo} {maxDirents lineStart i : ℕ}

def lineBody (kind : UInt8) (stem ext digits : List UInt8) : List UInt8 :=
  idTag ++ [kind] ++ slash :: (nameTag ++ paddedName stem ext) ++ slash :: (sizeTag ++ digits) ++
    [slash]

structure LineParts (kind : UInt8) (stem ext digits : List UInt8) : Prop where
  letter : kind = 0x44 ∨ kind = 0x46
  stem_chars : ∀ c ∈ stem, c ≠ 0 ∧ c ≠ blank ∧ c ≠ newline ∧ c ≠ slash
  ext_chars : ∀ c ∈ ext, c ≠ 0 ∧ c ≠ blank ∧ c ≠ newline ∧ c ≠ slash
  stem_le : stem.length ≤ 8
  ext_le : ext.length ≤ 3
  digit_chars : ∀ c ∈ digits, isDigit c = true

section

variable (h : LineParts kind stem ext digits)

include h

theorem LineParts.length_lineBody :
    (lineBody kind stem ext digits).length = digits.length + 22 := by
  simp only [lineBody, length_append, length_cons, length_nil,
    length_paddedName h.stem_le h.ext_le, idTag, nameTag, sizeTag]
  omega

theorem LineParts.plain_stem : Plain stem :=
  fun c hc => ⟨(h.stem_chars c hc).1, (h.stem_chars c hc).2.1, (h.stem_chars c hc).2.2.1⟩

theorem LineParts.plain_ext : Plain ext :=
  fun c hc => ⟨(h.ext_chars c hc).1, (h.ext_chars c hc).2.1, (h.ext_chars c hc).2.2.1⟩

theorem LineParts.ne_of_mem_paddedName {c : UInt8}
    (hc : c ∈ paddedName stem ext) : c ≠ 0 ∧ c ≠ newline ∧ c ≠ slash := by
  have hblank : ∀ n, c ∈ List.replicate n blank → c ≠ 0 ∧ c ≠ newline ∧ c ≠ slash := by
    intro n hn
    rw [eq_of_mem_replicate hn]
    decide
  simp only [paddedName, mem_append] at hc
  rcases hc with ((hc | hc) | hc) | hc
  · exact ⟨(h.stem_chars c hc).1, (h.stem_chars c hc).2.2⟩
  · exact hblank _ hc
  · exact ⟨(h.ext_chars c hc).1, (h.ext_chars c hc).2.2⟩
  · exact hblank _ hc

end

def lineInfo (kind : UInt8) (stem ext digits : List UInt8) : DirentInfo :=
  ⟨copyName (fun _ => 0) (formattedName stem ext), if kind = 0x44 then .directory else .file,
    atoi digits⟩

theorem segmentLoop_of_line (h : LineParts kind stem ext digits) (hdigits : digits.length < 500)
    (hat : buf.At a (lineBody kind stem ext digits)) (hend : buf (a + (digits.length + 22)) = 0) :
    ∃ buf', segmentLoop (digits.length + 22 + 1) a a buf .zero =
        (buf', lineInfo kind stem ext digits) ∧
      ∀ x, a + (digits.length + 22) < x → buf' x = buf x := by
  have hlen := length_paddedName h.stem_le h.ext_le
  have hletter : kind ≠ 0 ∧ kind ≠ slash := by
    rcases h.letter with rfl | rfl <;> decide
  simp only [lineBody, Memory.at_append, Memory.at_cons, length_append, length_cons,
    length_nil, hlen] at hat
  obtain ⟨⟨⟨⟨hid, hkind, -⟩, hslash₁, htag, hname⟩, hslash₂, hsize, hdig⟩, hslash₃, -⟩ := hat
  replace hid : buf.At a (idTag ++ [kind]) := Memory.at_append.mpr ⟨hid, hkind, trivial⟩
  replace hslash₁ : buf (a + 4) = slash := hslash₁
  replace htag : buf.At (a + 5) nameTag := htag
  replace hname : buf.At (a + 7) (paddedName stem ext) := hname
  replace hslash₂ : buf (a + 18) = slash := hslash₂
  replace hsize : buf.At (a + 19) (sizeTag ++ digits) := Memory.at_append.mpr ⟨hsize, hdig⟩
  replace hslash₃ : buf (a + 19 + (digits.length + 2)) = slash := by
    rw [← hslash₃]
    congr 1
    simp only [idTag, nameTag, sizeTag, length_cons, length_nil]
    omega
  have hlengthId : (idTag ++ [kind]).length = 4 := rfl
  have hlengthName : (nameTag ++ paddedName stem ext).length = 13 := by
    rw [length_append, hlen]
    rfl
  have hlengthSize : (sizeTag ++ digits).length = digits.length + 2 := by
    rw [length_append, add_comm]
    rfl
  -- the buffer after each of the first three segments
  let first : Memory := assign buf (a + 4) 0
  let second : Memory := formatDirents (a + 7) 11 (assign first (a + 18) 0)
  let third : Memory := assign second (a + 19 + (digits.length + 2)) 0
  have hfst : ∀ x, a + 4 < x → first x = buf x := fun x hx => assign_of_ne _ _ (by omega)
  have hsnd : ∀ x, a + 18 < x → second x = buf x := by
    intro x hx
    rw [show second x = assign first (a + 18) 0 x from formatLoop_of_disjoint (.inr (by omega)),
      assign_of_ne _ _ (by omega), hfst x (by omega)]
  have hthird : ∀ x, a + 19 + (digits.length + 2) < x → third x = buf x := by
    intro x hx
    rw [show third x = second x from assign_of_ne _ _ (by omega), hsnd x (by omega)]
  have hread₁ : readSegment first a .zero =
      (first, { DirentInfo.zero with type := if kind = 0x44 then .directory else .file }) :=
    readSegment_id (hid.assign (.inr le_rfl)) hletter.1 (assign_same ..)
  have hread₂ : ∀ info, readSegment (assign first (a + 18) 0) (a + 5) info =
      (second, { info with name := copyName info.name (formattedName stem ext) }) := by
    intro info
    refine readSegment_name ?_ ((nameAt_iff h.stem_le h.ext_le).mpr ⟨?_, assign_same ..⟩)
      h.plain_stem h.plain_ext h.stem_le h.ext_le
    · exact (htag.assign (.inl (by omega))).assign (.inr (by simp [nameTag]))
    · exact (hname.assign (.inl (by omega))).assign (.inr (by rw [hlen]))
  have hread₃ : ∀ info, readSegment third (a + 19) info =
      (third, { info with size := atoi digits }) := by
    intro info
    refine readSegment_size ?_ ?_ hdigits ?_
    · have hat : second.At (a + 19) (sizeTag ++ digits) :=
        hsize.congr fun x hlo hhi => hsnd x (by omega)
      exact hat.assign (.inr (by rw [hlengthSize]))
    · exact fun hzero => (ne_of_isDigit (h.digit_chars 0 hzero)).1 rfl
    · rw [show a + 19 + 2 + digits.length = a + 19 + (digits.length + 2) by omega]
      exact assign_same ..
  have hstep₁ : ∀ left, segmentLoop (4 + 1 + left) a a buf .zero =
      segmentLoop left (a + 5) (a + 5) first (readSegment first a .zero).2 := by
    intro left
    have hchars : ∀ c ∈ idTag ++ [kind], c ≠ slash ∧ c ≠ 0 := by
      simp only [mem_append, mem_singleton]
      rintro c (hc | rfl)
      · exact (by decide +kernel : ∀ c ∈ idTag, c ≠ slash ∧ c ≠ 0) c hc
      · exact ⟨hletter.2, hletter.1⟩
    rw [← hlengthId, segmentLoop_of_segment hid hchars (.inl hslash₁), hlengthId, hread₁]
  have hstep₂ : ∀ left info, segmentLoop (13 + 1 + left) (a + 5) (a + 5) first info =
      segmentLoop left (a + 19) (a + 19) second
        (readSegment (assign first (a + 18) 0) (a + 5) info).2 := by
    intro left info
    have hat : first.At (a + 5) (nameTag ++ paddedName stem ext) :=
      (Memory.at_append.mpr ⟨htag, hname⟩).congr fun x hlo hhi => hfst x (by omega)
    have hchars : ∀ c ∈ nameTag ++ paddedName stem ext, c ≠ slash ∧ c ≠ 0 := by
      intro c hc
      rcases mem_append.mp hc with hc | hc
      · exact (by decide +kernel : ∀ c ∈ nameTag, c ≠ slash ∧ c ≠ 0) c hc
      · exact ⟨(h.ne_of_mem_paddedName hc).2.2, (h.ne_of_mem_paddedName hc).1⟩
    have hend' : first (a + 5 + 13) = slash := (hfst _ (by omega)).trans hslash₂
    rw [← hlengthName] at hend'
    rw [← hlengthName, segmentLoop_of_segment hat hchars (.inl hend'), hlengthName, hread₂]
  have hstep₃ : ∀ left info,
      segmentLoop (digits.length + 2 + 1 + left) (a + 19) (a + 19) second info =
        segmentLoop left (a + 19 + (digits.length + 2) + 1) (a + 19 + (digits.length + 2) + 1) third
          (readSegment third (a + 19) info).2 := by
    intro left info
    have hat : second.At (a + 19) (sizeTag ++ digits) :=
      hsize.congr fun x hlo hhi => hsnd x (by omega)
    have hchars : ∀ c ∈ sizeTag ++ digits, c ≠ slash ∧ c ≠ 0 := by
      intro c hc
      rcases mem_append.mp hc with hc | hc
      · exact (by decide +kernel : ∀ c ∈ sizeTag, c ≠ slash ∧ c ≠ 0) c hc
      · have hne := ne_of_isDigit (h.digit_chars c hc)
        exact ⟨hne.2.2.2, hne.1⟩
    have hend' : second (a + 19 + (digits.length + 2)) = slash :=
      (hsnd _ (by omega)).trans hslash₃
    rw [← hlengthSize] at hend'
    rw [← hlengthSize, segmentLoop_of_segment hat hchars (.inl hend'), hlengthSize, hread₃]
  have hlast : third (a + 19 + (digits.length + 2) + 1) = 0 := by
    rw [hthird _ (by omega), ← hend]
    congr 1
    omega
  refine ⟨assign third (a + 19 + (digits.length + 2) + 1) 0, ?_, fun x hx => ?_⟩
  · rw [show digits.length + 22 + 1 = 4 + 1 + (13 + 1 + (digits.length + 2 + 1 + 1)) by omega,
      hstep₁, hstep₂, hstep₃, segmentLoop, if_pos (.inr hlast), readSegment_nil (assign_same ..),
      segmentLoop, hread₃, hread₂, hread₁]
    rfl
  · rw [assign_of_ne _ _ (by omega)]
    exact hthird x (by omega)

theorem lineLoop_of_chars (hat : buf.At i chars) (hchars : ∀ c ∈ chars, c ≠ newline ∧ c ≠ 0)
    (hslots : slots.length < maxDirents) :
    lineLoop maxDirents (chars.length + left) i lineStart buf slots =
      lineLoop maxDirents left (i + chars.length) lineStart buf slots := by
  induction chars generalizing i with
  | nil => rw [length_nil, zero_add, add_zero]
  | cons c chars ih =>
    obtain ⟨hc, hrest⟩ := hat
    obtain ⟨hline, hzero⟩ := hchars c mem_cons_self
    rw [length_cons, add_right_comm, lineLoop, if_neg (by omega), hc,
      if_neg (by simp [hline, hzero]), ih hrest fun d hd => hchars d (mem_cons_of_mem c hd),
      add_assoc, add_comm 1]

theorem lineLoop_of_line (h : LineParts kind stem ext digits) (hdigits : digits.length < 500)
    (hat : buf.At a (lineBody kind stem ext digits ++ [newline]))
    (hslots : slots.length < maxDirents) :
    ∃ buf', lineLoop maxDirents (digits.length + 23 + left) a a buf slots =
        lineLoop maxDirents left (a + (digits.length + 23)) (a + (digits.length + 23)) buf'
          (slots ++ [lineInfo kind stem ext digits]) ∧
      ∀ x, a + (digits.length + 23) ≤ x → buf' x = buf x := by
  have hlen := h.length_lineBody
  rw [Memory.at_append, Memory.at_cons, hlen] at hat
  obtain ⟨hbody, hend, -⟩ := hat
  have hletter : kind ≠ newline ∧ kind ≠ 0 := by
    rcases h.letter with rfl | rfl <;> decide
  have hchars : ∀ c ∈ lineBody kind stem ext digits, c ≠ newline ∧ c ≠ 0 := by
    intro c hc
    simp only [lineBody, mem_append, mem_cons, not_mem_nil, or_false] at hc
    rcases hc with (((hc | rfl) | rfl | hc | hc) | rfl | hc | hc) | rfl
    · exact (by decide +kernel : ∀ c ∈ idTag, c ≠ newline ∧ c ≠ 0) c hc
    · exact hletter
    · decide
    · exact (by decide +kernel : ∀ c ∈ nameTag, c ≠ newline ∧ c ≠ 0) c hc
    · exact ⟨(h.ne_of_mem_paddedName hc).2.1, (h.ne_of_mem_paddedName hc).1⟩
    · decide
    · exact (by decide +kernel : ∀ c ∈ sizeTag, c ≠ newline ∧ c ≠ 0) c hc
    · have hne := ne_of_isDigit (h.digit_chars c hc)
      exact ⟨hne.2.2.1, hne.1⟩
    · decide
  let ended : Memory := assign buf (a + (digits.length + 22)) 0
  have hread : ∃ buf', segmentLoop (digits.length + 22 + 1) a a ended .zero =
      (buf', lineInfo kind stem ext digits) ∧
      ∀ x, a + (digits.length + 22) < x → buf' x = ended x :=
    segmentLoop_of_line h hdigits (hbody.assign (.inr (by rw [hlen]))) (assign_same ..)
  obtain ⟨buf', hloop, hsame⟩ := hread
  refine ⟨buf', ?_, fun x hx => ?_⟩
  · rw [show digits.length + 23 + left = (lineBody kind stem ext digits).length + (1 + left) by
        rw [hlen]; omega,
      lineLoop_of_chars hbody hchars hslots, hlen, add_comm 1 left, lineLoop,
      if_neg (by omega), if_pos (.inl hend), if_pos (by omega),
      show a + (digits.length + 22) + 1 - a = digits.length + 22 + 1 by omega]
    simp only [ended] at hloop
    simp only [hloop]
    rfl
  · rw [hsame x (by omega)]
    exact assign_of_ne _ _ (by omega)

end Taavi.User
