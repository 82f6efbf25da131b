import Taavi.Fat.Paths
import Taavi.Fat.System
import Taavi.User.Listings

/-!
# Names through a listing

Directories with valid 8.3 names through `fat32_list_dir` and `list_dirents`. Kinds and sizes
survive. A stem of eight characters loses the dot before its extension, and an empty directory is an
error.
-/

namespace Taavi.User

open Lib List
open Fat (dirPlaces emptyStart entryAt findCluster format83 itoa listDir listedSlots listing slot
  smallGeometry smallMount volume WellFormed)

/-- A capital letter or a digit. -/
def isNameChar (c : UInt8) : Bool := (0x41 ≤ c && c ≤ 0x5A) || (0x30 ≤ c && c ≤ 0x39)

structure ShortName where
  stem : List UInt8
  ext : List UInt8
  stem_pos : 0 < stem.length
  stem_le : stem.length ≤ 8
  ext_le : ext.length ≤ 3
  stem_chars : ∀ c ∈ stem, isNameChar c = true
  ext_chars : ∀ c ∈ ext, isNameChar c = true

/-- The name as it is written: `NAME.EXT`, or `NAME` without an extension. -/
def ShortName.text (n : ShortName) : List UInt8 :=
  if n.ext = [] then n.stem else n.stem ++ dot :: n.ext

/-- An entry of a directory. -/
structure Item where
  name : ShortName
  type : DirentType
  size : ℕ
  size_lt : size < 2 ^ 31

structure Item.Describes (item : Item) (e : Fat.Entry) : Prop where
  name : e.name = format83 item.name.text
  type : e.attr &&& Fat.attrDirectory ≠ 0 ↔ item.type = .directory
  size : e.size = item.size

variable {n n' : ShortName} {item : Item} {items : List Item} {e : Fat.Entry} {c : UInt8}

theorem ne_of_isNameChar (hc : isNameChar c = true) :
    c ≠ 0 ∧ c ≠ blank ∧ c ≠ newline ∧ c ≠ slash := by
  refine ⟨?_, ?_, ?_, ?_⟩ <;> rintro rfl <;> exact absurd hc (by decide)

theorem ne_dot_of_isNameChar (hc : isNameChar c = true) : c ≠ dot := by
  rintro rfl
  exact absurd hc (by decide)

theorem toUpper_of_isNameChar (hc : isNameChar c = true) : Fat.toUpper c = c := by
  unfold Fat.toUpper
  rw [if_neg]
  simp only [isNameChar, Bool.and_eq_true, Bool.or_eq_true, decide_eq_true_eq,
    UInt8.le_iff_toNat_le] at hc ⊢
  simp only [UInt8.reduceToNat] at hc ⊢
  omega

theorem padded_eq {chars : List UInt8} {k : ℕ} (hchars : ∀ c ∈ chars, isNameChar c = true) :
    Fat.padded k chars = chars ++ List.replicate (k - chars.length) blank := by
  have hmap : chars.map Fat.toUpper = chars := by
    refine (map_congr_left fun c hc => toUpper_of_isNameChar (hchars c hc)).trans ?_
    exact map_id' chars
  rw [Fat.padded, hmap]
  rfl

theorem format83_text (n : ShortName) : format83 n.text = paddedName n.stem n.ext := by
  have hdot : ∀ c ∈ n.stem, (c == Fat.dot) = false :=
    fun c hc => beq_eq_false_iff_ne.mpr (ne_dot_of_isNameChar (n.stem_chars c hc))
  unfold ShortName.text paddedName
  by_cases hext : n.ext = []
  · have hnone : n.stem.findIdx? (· == Fat.dot) = none := by
      simpa [List.findIdx?_eq_none_iff] using hdot
    rw [if_pos hext, hext, format83, hnone]
    dsimp only
    rw [take_of_length_le n.stem_le, padded_eq n.stem_chars, append_nil]
    rfl
  · have hsome : (n.stem ++ dot :: n.ext).findIdx? (· == Fat.dot) = some n.stem.length := by
      rw [List.findIdx?_append, List.findIdx?_eq_none_iff.mpr hdot, List.findIdx?_cons,
        if_pos (show (dot == Fat.dot) = true from rfl), Option.map_some, zero_add,
        Option.none_or]
    rw [if_neg hext, format83, hsome]
    dsimp only
    rw [take_left, take_of_length_le n.stem_le, padded_eq n.stem_chars,
      drop_append, drop_of_length_le (by omega), nil_append,
      show n.stem.length + 1 - n.stem.length = 1 by omega, drop_one, tail_cons,
      take_of_length_le n.ext_le, padded_eq n.ext_chars, append_assoc, append_assoc,
      append_assoc]

theorem text_injective (h : format83 n.text = format83 n'.text) : n.text = n'.text := by
  have hparts : ∀ k : ShortName,
      ((format83 k.text).take 8).takeWhile (· != blank) = k.stem ∧
      ((format83 k.text).drop 8).takeWhile (· != blank) = k.ext := by
    intro k
    have hpad : ∀ (chars : List UInt8) (m : ℕ), (∀ c ∈ chars, isNameChar c = true) →
        (chars ++ List.replicate m blank).takeWhile (· != blank) = chars := by
      intro chars m hchars
      rw [takeWhile_append_of_pos fun c hc => by
        simpa using (ne_of_isNameChar (hchars c hc)).2.1]
      cases m with
      | zero => simp
      | succ m => simp [replicate_succ]
    have hlen : (k.stem ++ List.replicate (8 - k.stem.length) blank).length = 8 := by
      have := k.stem_le
      simp only [length_append, length_replicate]
      omega
    rw [format83_text, paddedName, append_assoc, take_left' hlen,
      drop_left' hlen]
    exact ⟨hpad _ _ k.stem_chars, hpad _ _ k.ext_chars⟩
  have hstem : n.stem = n'.stem := by rw [← (hparts n).1, h, (hparts n').1]
  have hext : n.ext = n'.ext := by rw [← (hparts n).2, h, (hparts n').2]
  rw [ShortName.text, ShortName.text, hstem, hext]

theorem listedName_eq_text_iff :
    listedName n.stem n.ext = n.text ↔ n.ext = [] ∨ n.stem.length < 8 := by
  unfold listedName ShortName.text
  by_cases hext : n.ext = []
  · simp [hext]
  · by_cases hshort : n.stem.length < 8
    · simp [hext, hshort]
    · simp [hext, hshort]

def DirentInfo.shown (info : DirentInfo) : List UInt8 × DirentType × ℕ :=
  (info.name.string 13 0, info.type, info.size)

/-- What it should show. -/
def Item.shown (item : Item) : List UInt8 × DirentType × ℕ :=
  (item.name.text, item.type, item.size)

def kindOf : DirentType → UInt8
  | .directory => 0x44
  | .file => 0x46

def Item.line (item : Item) : List UInt8 :=
  lineBody (kindOf item.type) item.name.stem item.name.ext (itoa item.size) ++ [newline]

/-- What `list_dirents` reads in the line of an item. -/
def Item.info (item : Item) : DirentInfo :=
  lineInfo (kindOf item.type) item.name.stem item.name.ext (itoa item.size)

theorem Item.lineParts (item : Item) :
    LineParts (kindOf item.type) item.name.stem item.name.ext (itoa item.size) where
  letter := by cases item.type <;> simp [kindOf]
  stem_chars c hc := ne_of_isNameChar (item.name.stem_chars c hc)
  ext_chars c hc := ne_of_isNameChar (item.name.ext_chars c hc)
  stem_le := item.name.stem_le
  ext_le := item.name.ext_le
  digit_chars c hc := isDigit_of_mem_itoa item.size_lt hc

theorem Item.Describes.line (h : item.Describes e) : e.line = item.line := by
  have hname : e.name = paddedName item.name.stem item.name.ext := h.name.trans (format83_text _)
  have hwhole : e.name.takeWhile (· != 0) = e.name := by
    rw [takeWhile_eq_self_iff, hname]
    exact fun c hc => by simpa using (item.lineParts.ne_of_mem_paddedName hc).1
  have hsize : (e.size : ℤ).bmod (2 ^ 32) = item.size := by
    have hlt := item.size_lt
    rw [h.size, Int.bmod_eq_of_le] <;> omega
  have htag : (if e.attr &&& Fat.attrDirectory ≠ 0 then Fat.directoryTag else Fat.fileTag) =
      idTag ++ [kindOf item.type] ++ slash :: nameTag := by
    cases htype : item.type with
    | directory => rw [if_pos (h.type.mpr htype)]; rfl
    | file =>
      rw [if_neg fun hdir => by simpa [htype] using h.type.mp hdir]
      rfl
  rw [Fat.Entry.line, hwhole, hsize, htag, hname]
  simp [Item.line, lineBody, Fat.sizeTag, Fat.lineEnd, sizeTag, slash, newline]

theorem shown_info (item : Item) : item.info.shown =
    (listedName item.name.stem item.name.ext, item.type, item.size) := by
  have hparts := item.lineParts
  obtain ⟨k, hk⟩ : ∃ k, formattedName item.name.stem item.name.ext =
      listedName item.name.stem item.name.ext ++ List.replicate k blank :=
    formattedName_eq item.name.stem_le
  have hchars : ∀ c ∈ listedName item.name.stem item.name.ext, c ≠ 0 ∧ c ≠ blank := by
    intro c hc
    have hmem : c ∈ item.name.stem ∨ c = dot ∨ c ∈ item.name.ext := by
      unfold listedName at hc
      split_ifs at hc with hgap
      · simpa using hc
      · exact (mem_append.mp hc).imp_right .inr
    rcases hmem with hc | rfl | hc
    · exact hparts.plain_stem.skip c hc
    · decide
    · exact hparts.plain_ext.skip c hc
  have hlen : (listedName item.name.stem item.name.ext).length < 13 := by
    have hstem := item.name.stem_le
    have hext := item.name.ext_le
    unfold listedName
    split_ifs <;> simp only [length_append, length_cons] <;> omega
  have htype : (if kindOf item.type = 0x44 then DirentType.directory else .file) = item.type := by
    cases item.type <;> rfl
  simp only [DirentInfo.shown, Item.info, lineInfo, hk, string_copyName hchars hlen, htype,
    atoi_itoa item.size_lt]

theorem Item.length_line (item : Item) : item.line.length = (itoa item.size).length + 23 := by
  rw [Item.line, length_append, item.lineParts.length_lineBody]
  rfl

theorem lineLoop_of_items {buf : Memory} {a max : ℕ} {slots : List DirentInfo}
    (hitems : ∀ item ∈ items, (itoa item.size).length < 500)
    (hat : buf.At a (items.map Item.line).flatten)
    (hend : buf (a + (items.map Item.line).flatten.length) = 0)
    (hmax : slots.length + items.length ≤ max) :
    lineLoop max ((items.map Item.line).flatten.length + 1) a a buf slots =
      slots ++ items.map Item.info := by
  induction items generalizing buf a slots with
  | nil =>
    replace hend : buf a = 0 := hend
    simp [lineLoop, hend]
  | cons item items ih =>
    rw [map_cons, flatten_cons] at hat hend ⊢
    rw [length_append, item.length_line] at hend ⊢
    rw [Memory.at_append, item.length_line] at hat
    rw [length_cons] at hmax
    have hslots : slots.length < max := by omega
    have hline : ∃ buf', lineLoop max ((itoa item.size).length + 23 +
          ((items.map Item.line).flatten.length + 1)) a a buf slots =
        lineLoop max ((items.map Item.line).flatten.length + 1)
          (a + ((itoa item.size).length + 23)) (a + ((itoa item.size).length + 23)) buf'
          (slots ++ [item.info]) ∧
        ∀ x, a + ((itoa item.size).length + 23) ≤ x → buf' x = buf x :=
      lineLoop_of_line item.lineParts (hitems item mem_cons_self) hat.1 hslots
    obtain ⟨buf', hloop, hsame⟩ := hline
    rw [add_assoc, hloop, ih]
    · rw [map_cons, append_assoc, singleton_append]
    · exact fun item' hitem' => hitems item' (mem_cons_of_mem item hitem')
    · exact hat.2.congr fun x hlo _ => hsame x hlo
    · rw [hsame _ (by omega), ← hend, add_assoc]
    · rw [length_append, length_singleton]
      omega

theorem listDirents_eq {max : ℕ} (hne : items ≠ [])
    (hlen : (items.map Item.line).flatten.length ≤ 511) (hmax : items.length ≤ max) :
    listDirents (items.map Item.line).flatten max = some (items.map Item.info) := by
  have hitems : ∀ item ∈ items, (itoa item.size).length < 500 := by
    intro item hitem
    have hle := (sublist_flatten_of_mem (mem_map_of_mem (f := Item.line) hitem)).length_le
    rw [item.length_line] at hle
    omega
  have hpos : (items.map Item.line).flatten.length ≠ 0 := by
    obtain ⟨item, rest, rfl⟩ := exists_cons_of_ne_nil hne
    rw [map_cons, flatten_cons, length_append, item.length_line]
    omega
  rw [listDirents, if_neg hpos, lineLoop_of_items hitems, nil_append]
  · exact Memory.at_of_getD fun i _ => by rw [zero_add]; rfl
  · rw [zero_add]
    exact getD_eq_default _ _ le_rfl
  · simpa using hmax

variable {m : Fat.Mount} {g : Fat.Geometry} {s : Fat.State} {v : Fat.Volume} {d fuel max : ℕ}
  {k : List ℕ} {itemAt : ℕ × ℕ → Item}

/-- There is an entry, all are in the first cluster, and none has both a stem of eight characters
and an extension. -/
def Legible (g : Fat.Geometry) (v : Fat.Volume) (d : ℕ) (k : List ℕ) (itemAt : ℕ × ℕ → Item) :
    Prop :=
  dirPlaces g v k ≠ [] ∧ ∀ p ∈ dirPlaces g v k,
    p.1 = d ∧ ((itemAt p).name.ext = [] ∨ (itemAt p).name.stem.length < 8)

theorem listDirents_listing_iff (hk : Chain v.cells d k)
    (hitem : ∀ p ∈ dirPlaces g v k, (itemAt p).Describes (slot v p.1 p.2))
    (hlen : (listing g (v.data d)).length ≤ 511) (hmax : (dirPlaces g v k).length ≤ max) :
    (listDirents (listing g (v.data d)) max).map (List.map DirentInfo.shown) =
        some ((dirPlaces g v k).map fun p => (itemAt p).shown) ↔ Legible g v d k itemAt := by
  obtain ⟨k, rfl⟩ := hk.exists_cons
  have hnodup : d ∉ k := (nodup_cons.mp hk.nodup).1
  obtain ⟨rest, hplaces, hrest⟩ := Fat.dirPlaces_cons (g := g) (v := v) (d := d) (k := k)
  unfold Legible
  rw [hplaces] at hitem hmax ⊢
  generalize hfst : (listedSlots g (v.data d)).map (fun i => (d, i)) = first at hitem hmax ⊢
  have htext : listing g (v.data d) = ((first.map itemAt).map Item.line).flatten := by
    rw [listing, ← hfst, map_map, map_map]
    refine congrArg List.flatten (map_congr_left fun i hi => ?_)
    refine (hitem (d, i) (mem_append_left rest ?_)).line
    exact hfst ▸ mem_map_of_mem hi
  by_cases hne : first = []
  · have hnone : listDirents (listing g (v.data d)) max = none := by
      rw [htext, hne]
      rfl
    rw [hnone, hne, nil_append]
    refine iff_of_false (by simp) ?_
    rintro ⟨hsome, hall⟩
    obtain ⟨p, hp⟩ := exists_mem_of_ne_nil rest hsome
    exact hnodup ((hall p hp).1 ▸ hrest p hp)
  · have hread : listDirents (listing g (v.data d)) max =
        some ((first.map itemAt).map Item.info) := by
      rw [htext] at hlen ⊢
      refine listDirents_eq (by simpa using hne) hlen ?_
      rw [length_append] at hmax
      rw [length_map]
      omega
    have hshown : ∀ p, (itemAt p).info.shown = (itemAt p).shown ↔
        ((itemAt p).name.ext = [] ∨ (itemAt p).name.stem.length < 8) := by
      intro p
      rw [shown_info, ← listedName_eq_text_iff]
      simp [Item.shown]
    rw [hread, Option.map_some, map_map, map_map, Option.some_inj]
    constructor
    · intro heq
      have hnil : rest = [] := by
        have hlengths := congrArg List.length heq
        simp only [length_map, length_append] at hlengths
        exact eq_nil_of_length_eq_zero (by omega)
      subst hnil
      rw [append_nil] at heq ⊢
      refine ⟨hne, fun p hp => ⟨?_, (hshown p).mp (map_inj_left.mp heq p hp)⟩⟩
      obtain ⟨i, -, rfl⟩ := mem_map.mp (hfst ▸ hp)
      rfl
    · rintro ⟨-, hall⟩
      have hnil : rest = [] := by
        refine eq_nil_iff_forall_not_mem.mpr fun p hp => hnodup ?_
        exact (hall p (mem_append_right first hp)).1 ▸ hrest p hp
      subst hnil
      rw [append_nil] at hall ⊢
      exact map_congr_left fun p hp => (hshown p).mpr (hall p hp).2

theorem ShortName.path (n : ShortName) : n.text ≠ [] ∧ Fat.skipSlash n.text = n.text ∧
    Fat.headName n.text = format83 n.text ∧ Fat.tailPath n.text = [] := by
  have hne : n.text ≠ [] := by
    have hpos := n.stem_pos
    unfold ShortName.text
    split_ifs
    · exact ne_nil_of_length_pos hpos
    · simp
  have hslash : Fat.slash ∉ n.text := by
    intro hmem
    have hname : Fat.slash ∈ n.stem ∨ Fat.slash = dot ∨ Fat.slash ∈ n.ext := by
      unfold ShortName.text at hmem
      split_ifs at hmem
      · exact .inl hmem
      · simpa using hmem
    rcases hname with hc | hc | hc
    · exact absurd rfl (ne_of_isNameChar (n.stem_chars _ hc)).2.2.2
    · exact absurd hc (by decide)
    · exact absurd rfl (ne_of_isNameChar (n.ext_chars _ hc)).2.2.2
  have hlen : n.text.length ≤ 12 := by
    have hstem := n.stem_le
    have hext := n.ext_le
    unfold ShortName.text
    split_ifs
    · omega
    · rw [length_append, length_cons]
      omega
  have hseg : Fat.firstSegment n.text = n.text := by
    have happend := Fat.firstSegment_append hslash (.inl rfl : Fat.Ended [])
    rwa [append_nil, take_of_length_le hlen] at happend
  refine ⟨hne, ?_, ?_, ?_⟩
  · have happend : Fat.skipSlash (n.text ++ []) = n.text ++ [] := Fat.skipSlash_append hne hslash
    rwa [append_nil] at happend
  · rw [Fat.headName, hseg]
  · rw [Fat.tailPath, hseg, drop_length]

theorem findCluster_of_name (hm : Fat.Ready m) (hvol : volume m s = v)
    (hv : WellFormed m v) (hd : Fat.IsDirectory m v d)
    (hk : Chain v.cells d k)
    (hitem : ∀ p ∈ dirPlaces m v k, (itemAt p).Describes (slot v p.1 p.2))
    (hnames : ((dirPlaces m v k).map fun p => (itemAt p).name.text).Nodup)
    (hfuel : m.maximumClusterSize + 1 < fuel) {p : ℕ × ℕ} (hp : p ∈ dirPlaces m v k) :
    Ends (findCluster m fuel d (itemAt p).name.text) s fun r _ => (r = none ∧ Fat.HeapFails m) ∨
      r = some ⟨(slot v p.1 p.2).cluster, d, (slot v p.1 p.2).size, (slot v p.1 p.2).attr⟩ := by
  obtain ⟨hne, hskip, hhead, htail⟩ := (itemAt p).name.path
  have hslot : Fat.entrySlot m v (Fat.headName (itemAt p).name.text) k = some p := by
    rw [hhead]
    refine Fat.entrySlot_of_dirPlaces hp (hitem p hp).name fun q hq hsame => ?_
    refine inj_on_of_nodup_map hnames hq hp (text_injective ?_)
    rw [← (hitem q hq).name, hsame]
  refine (Fat.findCluster_spec hm hvol hv hd hfuel _).imp ?_
  rintro r t ⟨-, hr | hr⟩
  · exact .inl hr
  · rw [hskip] at hr
    exact .inr ((Fat.Reaches.last hne htail).resolved hk hslot hr)

/-- What `list_dirents` reads in the text of `fat32_list_dir` is the entries of the directory, in
their order, if and only if there is one, all are in the first cluster, and none has both a stem of
eight characters and an extension. Opening the name of an entry finds it. -/
theorem names_survive_listing (hm : Fat.Ready m) (itemAt : ℕ × ℕ → Item) (max : ℕ)
    (hv : WellFormed m.toGeometry (volume m.toGeometry s))
    (hd : Fat.IsDirectory m.toGeometry (volume m.toGeometry s) d)
    (hk : Chain (volume m.toGeometry s).cells d k)
    (hitem : ∀ p ∈ dirPlaces m.toGeometry (volume m.toGeometry s) k,
      (itemAt p).Describes (slot (volume m.toGeometry s) p.1 p.2))
    (hnames : ((dirPlaces m.toGeometry (volume m.toGeometry s) k).map
      fun p => (itemAt p).name.text).Nodup)
    (hlength : (listing m.toGeometry ((volume m.toGeometry s).data d)).length ≤ 511)
    (hmax : (dirPlaces m.toGeometry (volume m.toGeometry s) k).length ≤ max)
    (hfuel : m.maximumClusterSize + 1 < fuel) :
    Ends (listDir m d) s fun r t => (r = none → Fat.HeapFails m) ∧ ∀ text, r = some text →
      ((listDirents text max).map (List.map DirentInfo.shown) =
          some ((dirPlaces m.toGeometry (volume m.toGeometry s) k).map fun p => (itemAt p).shown) ↔
        Legible m.toGeometry (volume m.toGeometry s) d k itemAt) ∧
      ∀ p ∈ dirPlaces m.toGeometry (volume m.toGeometry s) k,
        Ends (findCluster m fuel d (itemAt p).name.text) t fun r _ =>
          (r = none ∧ Fat.HeapFails m) ∨
            r = some ⟨(slot (volume m.toGeometry s) p.1 p.2).cluster, d, (itemAt p).size,
              (slot (volume m.toGeometry s) p.1 p.2).attr⟩ := by
  have hrange := Fat.inRange_of_used (hv.directories d hd).used
  refine (Fat.listDir_spec hm hrange s).imp ?_
  rintro r t ⟨rfl | ⟨rfl, hfails⟩, ht⟩
  · refine ⟨nofun, fun text htext => ?_⟩
    cases htext
    refine ⟨listDirents_listing_iff hk hitem hlength hmax, fun p hp => ?_⟩
    rw [← (hitem p hp).size]
    exact findCluster_of_name hm ht.volume hv hd hk hitem hnames hfuel hp
  · exact ⟨fun _ => hfails, nofun⟩

/-- The root directory of a small volume has a file of the name, and nothing else. -/
def HasOnly (n : ShortName) (v : Fat.Volume) : Prop :=
  v.cells 2 = .last ∧ dirPlaces (smallGeometry 4) v [2] = [(2, 0)] ∧
    (slot v 2 0).name = format83 n.text ∧ (slot v 2 0).attr &&& Fat.attrDirectory = 0 ∧
    (slot v 2 0).size = 0 ∧ (listing (smallGeometry 4) (v.data 2)).length ≤ 511

instance (n : ShortName) (v : Fat.Volume) : Decidable (HasOnly n v) :=
  inferInstanceAs (Decidable (_ ∧ _))

/-- `A.TXT`. -/
def shortStem : ShortName :=
  ⟨[0x41], [0x54, 0x58, 0x54], by decide, by decide, by decide, all_eq_true.mp (by decide),
    all_eq_true.mp (by decide)⟩

/-- `ABCDEFGH.TXT`. -/
def fullStem : ShortName :=
  ⟨[0x41, 0x42, 0x43, 0x44, 0x45, 0x46, 0x47, 0x48], [0x54, 0x58, 0x54], by decide, by decide,
    by decide, all_eq_true.mp (by decide), all_eq_true.mp (by decide)⟩

def emptyFile (n : ShortName) : Item := ⟨n, .file, 0, by decide⟩

theorem exists_hasOnly {n : ShortName}
    (hrun : ((Fat.Op.createDirent 2 n.text 0x20).run (smallMount 4) 0 emptyStart).any
      (fun r => decide (HasOnly n (volume (smallGeometry 4) r.2))) = true) :
    ∃ t, Fat.Step (smallMount 4) emptyStart (.createDirent 2 n.text 0x20) t ∧
      WellFormed (smallGeometry 4) (volume (smallGeometry 4) t) ∧
      HasOnly n (volume (smallGeometry 4) t) := by
  obtain ⟨⟨out, t⟩, hrun, honly⟩ := Option.any_eq_true _ _ |>.mp hrun
  have hfits : (Fat.Op.createDirent 2 n.text 0x20).Fits (smallGeometry 4)
      (volume (smallGeometry 4) emptyStart) := ⟨.root, by decide +kernel⟩
  have hstep : Fat.Step (smallMount 4) emptyStart (.createDirent 2 n.text 0x20) t := ⟨0, out, hrun⟩
  have hkept := hstep.kept (Fat.ready_smallMount (by decide))
    (Fat.consistent_emptyStart (by decide) (by decide)) hfits
  exact ⟨t, hstep, hkept.1.consistent.wellFormed, of_decide_eq_true honly⟩

theorem HasOnly.describes (h : HasOnly n v) :
    ∀ p ∈ dirPlaces (smallGeometry 4) v [2], (emptyFile n).Describes (slot v p.1 p.2) := by
  obtain ⟨-, hplaces, hname, hattr, hsize, -⟩ := h
  intro p hp
  rw [hplaces, mem_singleton] at hp
  subst hp
  exact ⟨hname, by simp [emptyFile, hattr], hsize⟩

/-- The file `A.TXT` is listed under its name. -/
theorem short_stem_survives :
    ∃ t, Fat.Step (smallMount 4) emptyStart (.createDirent 2 shortStem.text 0x20) t ∧
      Ends (listDir (smallMount 4) 2) t fun r _ => ∀ text, r = some text →
        (listDirents text 1).map (List.map DirentInfo.shown) =
          some [(shortStem.text, .file, 0)] := by
  let m := smallMount 4
  obtain ⟨t, hstep, hv, honly⟩ := exists_hasOnly (n := shortStem) (by decide +kernel)
  have hplaces : dirPlaces m (volume m t) [2] = [(2, 0)] := honly.2.1
  have hroot : Fat.IsDirectory m (volume m t) 2 := .root
  have hchain : Chain (volume m t).cells 2 [2] := .last honly.1
  have hlegible : Legible m (volume m t) 2 [2] fun _ => emptyFile shortStem := by
    rw [Legible, hplaces]
    decide
  have hsurvive := names_survive_listing (Fat.ready_smallMount (by decide))
    (fun _ => emptyFile shortStem) 1 hv hroot hchain honly.describes (by rw [hplaces]; decide)
    honly.2.2.2.2.2 (by rw [hplaces]; decide) (show m.maximumClusterSize + 1 < 8 by decide)
  refine ⟨t, hstep, hsurvive.imp fun r u hr text htext => ?_⟩
  rw [(hr.2 text htext).1.mpr hlegible, hplaces]
  rfl

/-- The file `ABCDEFGH.TXT` is not listed under its name. -/
theorem full_stem_is_damaged :
    ∃ t, Fat.Step (smallMount 4) emptyStart (.createDirent 2 fullStem.text 0x20) t ∧
      Ends (listDir (smallMount 4) 2) t fun r _ => ∃ text, r = some text ∧
        (listDirents text 1).map (List.map DirentInfo.shown) ≠
          some [(fullStem.text, .file, 0)] := by
  let m := smallMount 4
  obtain ⟨t, hstep, hv, honly⟩ := exists_hasOnly (n := fullStem) (by decide +kernel)
  have hplaces : dirPlaces m (volume m t) [2] = [(2, 0)] := honly.2.1
  have hchain : Chain (volume m t).cells 2 [2] := .last honly.1
  have hm : Fat.Ready m := Fat.ready_smallMount (by decide)
  have hrange : Fat.InRange m 2 := by decide
  refine ⟨t, hstep, (Fat.listDir_spec hm hrange t).imp ?_⟩
  rintro r u ⟨rfl | ⟨-, n, hfails⟩, -⟩
  · refine ⟨_, rfl, fun hread => ?_⟩
    have hlegible : Legible m (volume m t) 2 [2] fun _ => emptyFile fullStem := by
      have hlength : (dirPlaces m (volume m t) [2]).length ≤ 1 := by
        rw [hplaces]
        decide
      have hshown : (dirPlaces m (volume m t) [2]).map
          (fun _ => (emptyFile fullStem).shown) = [(fullStem.text, .file, 0)] := by
        rw [hplaces]
        rfl
      exact (listDirents_listing_iff hchain honly.describes honly.2.2.2.2.2 hlength).mp
        (hread.trans (congrArg some hshown.symm))
    rw [Legible, hplaces] at hlegible
    exact absurd hlegible (by decide)
  · cases hfails

end Taavi.User
