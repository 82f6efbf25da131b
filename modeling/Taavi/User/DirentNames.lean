import Mathlib.Data.List.GetD
import Taavi.User.Dirents

/-!
# What becomes of a padded name

`format_dirents` on the eleven bytes of a name. A stem of less than eight bytes gets a dot and its
extension. A stem of eight bytes has no blank behind it, and its extension is taken for a part of
it.
-/

namespace Taavi.User

open Lib List

variable {buf : Memory} {p size i j e left spaces fuel x : ℕ} {chars stem ext : List UInt8}

theorem scanBlanks_of_end (hblank : ∀ k, j ≤ k → k < e → buf (p + k) = blank) (hje : j ≤ e)
    (hend : j + left ≤ e ∨ buf (p + e) = 0) : (scanBlanks p buf left j spaces).2 = false := by
  induction left generalizing j spaces with
  | zero => rfl
  | succ left ih =>
    rw [scanBlanks]
    by_cases hlt : j < e
    · have hj := hblank j le_rfl hlt
      rw [hj, if_neg (by decide), if_pos rfl]
      exact ih (fun k hk hke => hblank k (by omega) hke) hlt (hend.imp_left fun h => by omega)
    · obtain rfl : j = e := by omega
      have hzero := hend.resolve_left (by omega)
      rw [if_pos (.inl hzero)]

theorem scanBlanks_of_found (hblank : ∀ k, j ≤ k → k < e → buf (p + k) = blank) (hje : j ≤ e)
    (hlt : e < j + left) (hzero : buf (p + e) ≠ 0) (hline : buf (p + e) ≠ newline)
    (hchar : buf (p + e) ≠ blank) :
    scanBlanks p buf left j spaces = (spaces + (e - j), true) := by
  induction left generalizing j spaces with
  | zero => omega
  | succ left ih =>
    rw [scanBlanks]
    by_cases hje' : j = e
    · subst hje'
      rw [if_neg (by simp [hzero, hline]), if_neg hchar, Nat.sub_self, add_zero]
    · rw [hblank j le_rfl (by omega), if_neg (by decide), if_pos rfl,
        ih (fun k hk hke => hblank k (by omega) hke) (by omega) (by omega)]
      congr 1
      omega

theorem moveExtension_eq (hspaces : 0 < spaces)
    (hzero : ∀ k, j ≤ k → k < j + left → buf (p + k) ≠ 0) :
    moveExtension p spaces left j buf x =
      if p + j ≤ x ∧ x < p + j + left then buf (x + spaces) else buf x := by
  induction left generalizing j buf with
  | zero => rw [moveExtension, if_neg (by omega)]
  | succ left ih =>
    rw [moveExtension, if_neg (hzero j le_rfl (by omega)), ih]
    · by_cases hx : x = p + j
      · subst hx
        rw [if_neg (by omega), if_pos (by omega), assign_same, add_assoc]
      · by_cases hin : p + (j + 1) ≤ x ∧ x < p + (j + 1) + left
        · rw [if_pos hin, if_pos (by omega), assign_of_ne _ _ (by omega)]
        · rw [if_neg hin, if_neg (by omega), assign_of_ne _ _ hx]
    · intro k hk hkl
      rw [assign_of_ne _ _ (by omega)]
      exact hzero k (by omega) (by omega)

theorem moveExtension_of_disjoint (hx : x < p + j ∨ p + j + left ≤ x) :
    moveExtension p spaces left j buf x = buf x := by
  induction left generalizing j buf with
  | zero => rfl
  | succ left ih =>
    rw [moveExtension]
    split_ifs
    · rfl
    · rw [ih (by omega), assign_of_ne _ _ (by omega)]

theorem formatLoop_of_disjoint (hx : x < p + i ∨ p + size ≤ x) :
    formatLoop p size fuel i buf x = buf x := by
  induction fuel generalizing i buf with
  | zero => rfl
  | succ fuel ih =>
    rw [formatLoop]
    by_cases hsize : size ≤ i
    · rw [if_pos hsize]
    rw [if_neg hsize]
    have hne : x ≠ p + i := by omega
    dsimp only
    split_ifs
    · rfl
    · rw [ih (by omega), assign_of_ne _ _ hne, assign_of_ne _ _ hne]
    · rw [ih (by omega), assign_of_ne _ _ hne]
    · rw [ih (by omega), moveExtension_of_disjoint (by omega), assign_of_ne _ _ hne]
    · exact ih (by omega)

theorem formatLoop_of_chars (hat : buf.At (p + i) chars) (hchars : ∀ c ∈ chars, c ≠ 0 ∧ c ≠ blank)
    (hsize : i + chars.length ≤ size) (hfuel : size ≤ i + fuel) :
    ∃ fuel', size ≤ i + chars.length + fuel' ∧
      formatLoop p size fuel i buf = formatLoop p size fuel' (i + chars.length) buf := by
  induction chars generalizing i fuel with
  | nil => exact ⟨fuel, hfuel, rfl⟩
  | cons c chars ih =>
    rw [length_cons] at hsize ⊢
    obtain ⟨fuel, rfl⟩ : ∃ k, fuel = k + 1 := ⟨fuel - 1, by omega⟩
    obtain ⟨hc, hrest⟩ := hat
    obtain ⟨hzero, hblank⟩ := hchars c mem_cons_self
    have hleft : size ≤ i + 1 + fuel := by omega
    obtain ⟨fuel', hfuel', heq⟩ := ih hrest
      (fun c' hc' => hchars c' (mem_cons_of_mem c hc')) (by omega) hleft
    refine ⟨fuel', by omega, ?_⟩
    rw [formatLoop, if_neg (by omega), hc, if_neg hzero, if_neg hblank, heq, add_assoc,
      add_comm 1]

theorem formatLoop_of_blanks (hblank : ∀ k, i ≤ k → k < e → buf (p + k) = blank)
    (hend : size ≤ e ∨ buf (p + e) = 0) (hie : i ≤ e) (hx : x ≤ p + e) :
    formatLoop p size fuel i buf x = buf x := by
  induction fuel generalizing i with
  | zero => rfl
  | succ fuel ih =>
    rw [formatLoop]
    by_cases hsize : size ≤ i
    · rw [if_pos hsize]
    rw [if_neg hsize]
    by_cases hlt : i < e
    · have hi := hblank i le_rfl hlt
      have hscan :
          (scanBlanks p (assign buf (p + i) dot) (size - (i + 1)) (i + 1) 0).2 = false := by
        refine scanBlanks_of_end (e := e) (fun k hk hke => ?_) hlt ?_
        · rw [assign_of_ne _ _ (by omega)]
          exact hblank k (by omega) hke
        · rw [assign_of_ne _ _ (by omega)]
          exact hend.imp_left fun h => by omega
      have hback : assign (assign buf (p + i) dot) (p + i) blank = buf := by
        funext y
        by_cases hy : y = p + i
        · rw [hy, assign_same, hi]
        · rw [assign_of_ne _ _ hy, assign_of_ne _ _ hy]
      rw [hi, if_neg (by decide), if_pos rfl]
      simp only [hscan, hback, Bool.not_false, if_true]
      by_cases hnext : i + 2 ≤ e
      · exact ih (fun k hk hke => hblank k (by omega) hke) hnext
      · exact formatLoop_of_disjoint (by omega)
    · obtain rfl : i = e := by omega
      rw [if_pos (hend.resolve_left hsize)]

section

def paddedName (stem ext : List UInt8) : List UInt8 :=
  stem ++ List.replicate (8 - stem.length) blank ++ ext ++ List.replicate (3 - ext.length) blank

/-- The string that `format_dirents` makes of them. -/
def formattedName (stem ext : List UInt8) : List UInt8 :=
  if ext ≠ [] ∧ stem.length < 8 then stem ++ dot :: ext ++ List.replicate (3 - ext.length) blank
  else paddedName stem ext

theorem at_replicate {a n : ℕ} {c : UInt8} :
    buf.At a (List.replicate n c) ↔ ∀ k, a ≤ k → k < a + n → buf k = c := by
  induction n generalizing a with
  | zero =>
    refine ⟨fun _ k hlo hhi => by omega, fun _ => trivial⟩
  | succ n ih =>
    rw [replicate_succ, Memory.at_cons, ih]
    constructor
    · rintro ⟨hfst, hrest⟩ k hlo hhi
      rcases Nat.eq_or_lt_of_le hlo with rfl | hlt
      · exact hfst
      · exact hrest k hlt (by omega)
    · intro h
      exact ⟨h a le_rfl (by omega), fun k hlo hhi => h k (by omega) (by omega)⟩

/-- The eleven bytes of a name are in the buffer, with a zero behind them. -/
structure NameAt (buf : Memory) (p : ℕ) (stem ext : List UInt8) : Prop where
  first : buf.At p stem
  gap : ∀ k, p + stem.length ≤ k → k < p + 8 → buf k = blank
  second : buf.At (p + 8) ext
  tail : ∀ k, p + 8 + ext.length ≤ k → k < p + 11 → buf k = blank
  last : buf (p + 11) = 0

/-- The characters of a name: none of them is a blank, a zero or the end of a line. -/
def Plain (chars : List UInt8) : Prop := ∀ c ∈ chars, c ≠ 0 ∧ c ≠ blank ∧ c ≠ newline

theorem Plain.skip (h : Plain chars) : ∀ c ∈ chars, c ≠ 0 ∧ c ≠ blank :=
  fun c hc => ⟨(h c hc).1, (h c hc).2.1⟩

theorem zero_not_mem_blanks (n : ℕ) : (0 : UInt8) ∉ List.replicate n blank :=
  fun h => absurd (eq_of_mem_replicate h) (by decide)

variable (hname : NameAt buf p stem ext) (hstem : Plain stem) (hext : Plain ext)
  (hlstem : stem.length ≤ 8) (hlext : ext.length ≤ 3)

section

include hlstem hlext

theorem length_paddedName : (paddedName stem ext).length = 11 := by
  simp only [paddedName, length_append, length_replicate]
  omega

theorem nameAt_iff : NameAt buf p stem ext ↔ buf.At p (paddedName stem ext) ∧ buf (p + 11) = 0 := by
  simp only [paddedName, Memory.at_append, length_append, length_replicate, at_replicate]
  rw [show stem.length + (8 - stem.length) = 8 by omega,
    show p + stem.length + (8 - stem.length) = p + 8 by omega,
    show p + (8 + ext.length) + (3 - ext.length) = p + 11 by omega, ← add_assoc]
  constructor
  · rintro ⟨hfst, hgap, hsnd, htail, hlast⟩
    exact ⟨⟨⟨⟨hfst, hgap⟩, hsnd⟩, htail⟩, hlast⟩
  · rintro ⟨⟨⟨⟨hfst, hgap⟩, hsnd⟩, htail⟩, hlast⟩
    exact ⟨hfst, hgap, hsnd, htail, hlast⟩

end

theorem zero_not_mem_paddedName (hstem : Plain stem) (hext : Plain ext) :
    (0 : UInt8) ∉ paddedName stem ext := by
  simp only [paddedName, mem_append, not_or]
  exact ⟨⟨⟨fun h => (hstem 0 h).1 rfl, zero_not_mem_blanks _⟩, fun h => (hext 0 h).1 rfl⟩,
    zero_not_mem_blanks _⟩

include hname hstem hlstem in
theorem formatDirents_of_stem : ∃ fuel, 11 ≤ stem.length + fuel ∧
    formatDirents p 11 buf = formatLoop p 11 fuel stem.length buf := by
  have hfst : ∃ fuel, 11 ≤ 0 + stem.length + fuel ∧
      formatLoop p 11 11 0 buf = formatLoop p 11 fuel (0 + stem.length) buf :=
    formatLoop_of_chars hname.first hstem.skip (by omega) (by omega)
  rwa [zero_add] at hfst

include hname hstem hext hlstem hlext

theorem formatDirents_of_full (hfull : ext = [] ∨ stem.length = 8) (hx : x ≤ p + 11) :
    formatDirents p 11 buf x = buf x := by
  obtain ⟨fuel, hfuel, heq⟩ := formatDirents_of_stem hname hstem hlstem
  rw [heq]
  rcases hfull with rfl | hfull
  · refine formatLoop_of_blanks (e := 11) (fun k hlo hhi => ?_) (.inl le_rfl) (by omega) hx
    by_cases hgap : k < 8
    · exact hname.gap (p + k) (by omega) (by omega)
    · exact hname.tail (p + k) (by simp; omega) (by omega)
  · have hsnd : ∃ fuel', 11 ≤ 8 + ext.length + fuel' ∧
        formatLoop p 11 fuel 8 buf = formatLoop p 11 fuel' (8 + ext.length) buf :=
      formatLoop_of_chars hname.second hext.skip (by omega) (by omega)
    obtain ⟨fuel', -, heq'⟩ := hsnd
    rw [hfull, heq']
    refine formatLoop_of_blanks (e := 11) (fun k hlo hhi => ?_) (.inl le_rfl) (by omega) hx
    exact hname.tail (p + k) (by omega) (by omega)

omit hstem in
theorem pass_of_gap (hshort : stem.length < 8) (hne : ext ≠ []) (fuel : ℕ) :
    ∃ moved : Memory, formatLoop p 11 (fuel + 1) stem.length buf =
        formatLoop p 11 fuel (stem.length + 2) moved ∧
      moved.At p (stem ++ dot :: ext) ∧
      (∀ k, p + stem.length + 1 + ext.length ≤ k → k < p + stem.length + 4 → moved k = blank) ∧
      moved (p + stem.length + 4) = 0 := by
  obtain ⟨c, rest, rfl⟩ := exists_cons_of_ne_nil hne
  rw [length_cons] at hlext
  obtain ⟨hc0, hcb, hcn⟩ := hext c mem_cons_self
  let dotted : Memory := assign buf (p + stem.length) dot
  have hsame : ∀ k, k ≠ p + stem.length → dotted k = buf k := fun k hk => assign_of_ne _ _ hk
  have hchar : dotted (p + 8) = c := (hsame _ (by omega)).trans hname.second.1
  have hscan : scanBlanks p dotted (11 - (stem.length + 1)) (stem.length + 1) 0 =
      (7 - stem.length, true) := by
    rw [scanBlanks_of_found (e := 8) (fun k hlo hhi => ?_) (by omega) (by omega) (by rwa [hchar])
      (by rwa [hchar]) (by rwa [hchar])]
    · congr 1
      omega
    · rw [hsame _ (by omega)]
      exact hname.gap (p + k) (by omega) (by omega)
  have hfst : buf (p + stem.length) = blank := hname.gap _ le_rfl (by omega)
  have hstemAt : dotted.At p stem := hname.first.assign (.inr le_rfl)
  have hextAt : dotted.At (p + 8) (c :: rest) :=
    hname.second.congr fun k hlo hhi => hsame k (by omega)
  have hpass : formatLoop p 11 (fuel + 1) stem.length buf =
      if 7 - stem.length = 0 then formatLoop p 11 fuel (stem.length + 2) dotted
      else formatLoop p 11 fuel (stem.length + 2)
        (moveExtension p (7 - stem.length) (11 - (stem.length + 1)) (stem.length + 1) dotted) := by
    rw [formatLoop, if_neg (by omega), hfst, if_neg (by decide), if_pos rfl]
    simp only [dotted] at hscan ⊢
    simp only [hscan, Bool.not_true, Bool.false_eq_true, if_false]
  rw [hpass]
  by_cases hseven : 7 - stem.length = 0
  · have hlen : stem.length = 7 := by omega
    rw [if_pos hseven]
    refine ⟨dotted, rfl, ?_, fun k hlo hhi => ?_, ?_⟩
    · rw [Memory.at_append, Memory.at_cons]
      refine ⟨hstemAt, assign_same .., ?_⟩
      rwa [hlen, add_assoc]
    · rw [hsame _ (by omega)]
      exact hname.tail k (by omega) (by omega)
    · rw [hsame _ (by omega), hlen]
      exact hname.last
  · rw [if_neg hseven]
    have hnonzero : ∀ k, stem.length + 1 ≤ k → k < stem.length + 1 + (11 - (stem.length + 1)) →
        dotted (p + k) ≠ 0 := by
      intro k hlo hhi
      rw [hsame _ (by omega)]
      by_cases hgap : k < 8
      · rw [hname.gap _ (by omega) (by omega)]
        decide
      by_cases hin : k < 8 + (rest.length + 1)
      · have hbyte := hname.second.byte (i := k - 8) (by rw [length_cons]; omega)
        rw [show p + 8 + (k - 8) = p + k by omega] at hbyte
        rw [hbyte]
        exact (hext _ (getElem_mem _)).1
      · rw [hname.tail _ (by rw [length_cons]; omega) (by omega)]
        decide
    have hmoved : ∀ y, moveExtension p (7 - stem.length) (11 - (stem.length + 1))
        (stem.length + 1) dotted y =
          if p + (stem.length + 1) ≤ y ∧ y < p + (stem.length + 1) + (11 - (stem.length + 1)) then
            dotted (y + (7 - stem.length)) else dotted y :=
      fun y => moveExtension_eq (by omega) hnonzero
    refine ⟨_, rfl, ?_, fun k hlo hhi => ?_, ?_⟩
    · rw [Memory.at_append, Memory.at_cons]
      refine ⟨hstemAt.congr fun y hlo hhi => ?_, ?_, ?_⟩
      · rw [hmoved, if_neg (by omega)]
      · rw [hmoved, if_neg (by omega)]
        exact assign_same ..
      · refine hextAt.shift fun k hk => ?_
        rw [length_cons] at hk
        rw [hmoved, if_pos (by omega)]
        congr 1
        omega
    · rw [length_cons] at hlo
      rw [hmoved, if_pos (by omega), hsame _ (by omega)]
      exact hname.tail _ (by rw [length_cons]; omega) (by omega)
    · rw [hmoved, if_pos (by omega), hsame _ (by omega)]
      rw [show p + stem.length + 4 + (7 - stem.length) = p + 11 by omega]
      exact hname.last

theorem string_formatDirents :
    (formatDirents p 11 buf).string bufSize p = formattedName stem ext := by
  have hzeroStem : (0 : UInt8) ∉ stem := fun h => (hstem 0 h).1 rfl
  have hzeroExt : (0 : UInt8) ∉ ext := fun h => (hext 0 h).1 rfl
  unfold formattedName
  split_ifs with hgap
  · obtain ⟨hne, hshort⟩ := hgap
    obtain ⟨fuel, hfuel, heq⟩ := formatDirents_of_stem hname hstem hlstem
    obtain ⟨fuel, rfl⟩ : ∃ k, fuel = k + 1 := ⟨fuel - 1, by omega⟩
    obtain ⟨moved, hpass, hat, htail, hlast⟩ := pass_of_gap hname hext hlstem hlext hshort hne fuel
    obtain ⟨c, rest, rfl⟩ := exists_cons_of_ne_nil hne
    rw [length_cons] at hlext htail
    have hskip : ∃ fuel', 11 ≤ stem.length + 2 + rest.length + fuel' ∧
        formatLoop p 11 fuel (stem.length + 2) moved =
          formatLoop p 11 fuel' (stem.length + 2 + rest.length) moved := by
      refine formatLoop_of_chars ?_ (fun d hd => hext.skip d (mem_cons_of_mem c hd)) (by omega)
        (by omega)
      rw [Memory.at_append, Memory.at_cons, Memory.at_cons] at hat
      exact hat.2.2.2
    obtain ⟨fuel', -, heq'⟩ := hskip
    have hresult : ∀ x, x ≤ p + stem.length + 4 → formatDirents p 11 buf x = moved x := by
      intro x hx
      rw [heq, hpass, heq']
      refine formatLoop_of_blanks (e := stem.length + 4) (fun k hlo hhi => ?_) (.inr ?_) (by omega)
        (by omega)
      · exact htail (p + k) (by omega) (by omega)
      · rwa [← add_assoc]
    have hlen :
        (stem ++ dot :: c :: rest ++ List.replicate (3 - (c :: rest).length) blank).length =
        stem.length + 4 := by
      simp only [length_append, length_cons, length_replicate]
      omega
    refine Memory.string_eq (Memory.at_append.mpr ⟨?_, ?_⟩) ?_ ?_ (by rw [hlen, bufSize]; omega)
    · refine hat.congr fun x hlo hhi => hresult x ?_
      simp only [length_append, length_cons] at hhi
      omega
    · refine at_replicate.mpr fun k hlo hhi => ?_
      simp only [length_append, length_cons] at hlo hhi
      rw [hresult k (by omega)]
      exact htail k (by omega) (by omega)
    · rw [hlen, hresult _ (by omega), ← add_assoc]
      exact hlast
    · simp only [mem_append, mem_cons, not_or]
      exact ⟨⟨hzeroStem, by decide, fun h => hzeroExt (mem_cons.mpr (.inl h)),
        fun h => hzeroExt (mem_cons_of_mem c h)⟩, zero_not_mem_blanks _⟩
  · have hfull : ext = [] ∨ stem.length = 8 := by
      by_cases hne : ext = []
      · exact .inl hne
      · exact .inr (by have := not_and.mp hgap hne; omega)
    have hresult : ∀ x, x ≤ p + 11 → formatDirents p 11 buf x = buf x :=
      fun x => formatDirents_of_full hname hstem hext hlstem hlext hfull
    obtain ⟨hat, hlast⟩ := (nameAt_iff hlstem hlext).mp hname
    have hlen := length_paddedName hlstem hlext
    refine Memory.string_eq (hat.congr fun x hlo hhi => hresult x ?_) ?_
      (zero_not_mem_paddedName hstem hext) (by rw [hlen]; decide)
    · omega
    · rw [hlen, hresult _ le_rfl]
      exact hlast

end

def listedName (stem ext : List UInt8) : List UInt8 :=
  if ext ≠ [] ∧ stem.length < 8 then stem ++ dot :: ext else stem ++ ext

theorem formattedName_eq (hlstem : stem.length ≤ 8) :
    ∃ n, formattedName stem ext = listedName stem ext ++ List.replicate n blank := by
  unfold formattedName listedName paddedName
  split_ifs with hgap
  · exact ⟨_, rfl⟩
  · by_cases hne : ext = []
    · subst hne
      refine ⟨8 - stem.length + 3, ?_⟩
      rw [append_nil, append_nil, append_assoc, replicate_append_replicate,
        length_nil]
    · have hfull : stem.length = 8 := by have := not_and.mp hgap hne; omega
      refine ⟨3 - ext.length, ?_⟩
      simp [hfull]

theorem string_copyName {name : List UInt8} {n : ℕ} (hname : ∀ c ∈ name, c ≠ 0 ∧ c ≠ blank)
    (hlen : name.length < 13) :
    (copyName (fun _ => 0) (name ++ List.replicate n blank)).string 13 0 = name := by
  have hbyte : ∀ i, copyName (fun _ => 0) (name ++ List.replicate n blank) i = name.getD i 0 := by
    intro i
    unfold copyName
    by_cases hi : i < name.length
    · have hget : (name ++ List.replicate n blank).getD i 0 = name[i] := by
        rw [getD_append _ _ _ _ hi, getD_eq_getElem _ _ hi]
      rw [hget, if_pos ⟨by simp; omega, (hname _ (getElem_mem hi)).2⟩,
        getD_eq_getElem _ _ hi]
    · have hblank : ¬ (i < (name ++ List.replicate n blank).length ∧
          (name ++ List.replicate n blank).getD i 0 ≠ blank) := by
        rintro ⟨hlt, hne⟩
        refine hne ?_
        rw [getD_append_right _ _ _ _ (by omega)]
        rw [length_append, length_replicate] at hlt
        rw [getD_eq_getElem _ _ (by simp; omega), getElem_replicate]
      rw [if_neg hblank, ite_self, getD_eq_default _ _ (by omega)]
  refine Memory.string_eq ?_ ?_ (fun h => (hname 0 h).1 rfl) hlen
  · exact Memory.at_of_getD fun i _ => by rw [zero_add, hbyte]
  · rw [hbyte, zero_add, getD_eq_default _ _ le_rfl]

end Taavi.User
