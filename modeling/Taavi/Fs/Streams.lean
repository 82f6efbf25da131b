import Taavi.Fat.Contents
import Taavi.Fat.Lookup
import Taavi.Fs.Descriptors

/-!
# Writing through a descriptor

What `write` does for a descriptor. One that appends is at the end of the file. Another one goes on
where it stopped, but records only the last length as the size. A file that fills its clusters
cannot be appended to.
-/

namespace Taavi.Fs

open Lib Fat List Option

variable {m : Mount} {s t s₀ : State} {fd h dir flags : ℕ} {place : ℕ × ℕ} {bytes old : List UInt8}
  {req : Request} {work : Work} {entry : FdEntry}

def payload (req : Request) : List UInt8 :=
  (List.range req.bufferSize).map fun i => (req.buf.getD []).getD i 0

/-- The cluster of the descriptor is one of the file, and there are enough free clusters. -/
structure Space (m : Mount) (s : State) (entry : FdEntry) (n : ℕ) : Prop where
  clusters : ∃ l, Chain (volume m.toGeometry s.fat).cells entry.fileCluster l ∧
    entry.currOffset / clusterSize m.toGeometry < l.length ∧
    entry.currOffset + n ≤
      (l.length + room m.toGeometry (volume m.toGeometry s.fat)) * clusterSize m.toGeometry
  small : entry.currOffset + n < 2 ^ 32

theorem FdEntry.advance_clusters (entry : FdEntry) (n : ℕ) :
    (entry.advance n).fileCluster = entry.fileCluster ∧
      (entry.advance n).dirCluster = entry.dirCluster ∧ (entry.advance n).flags = entry.flags := by
  unfold FdEntry.advance
  split_ifs <;> exact ⟨rfl, rfl, rfl⟩

theorem write_spec (hm : Ready m) (hheap : ¬HeapFails m) {fuel : ℕ}
    (hstored : Stored m (volume m s.fat) h dir place bytes)
    (hentry : s.fdEntryTable req.structKey = some entry) (hh : entry.fileCluster = h)
    (hdir : entry.dirCluster = dir) (hwritable : entry.flags &&& oRdonly = 0)
    (hbuf : req.buf.isSome = true) (hspace : Space m s entry req.bufferSize)
    (hoff : entry.currOffset ≤ bytes.length)
    (hsize : (entry.advance req.bufferSize).size = entry.currOffset + req.bufferSize)
    (hfuel : req.bufferSize < fuel) (hfuel' : m.maximumClusterSize + 1 < fuel) :
    Ends (write m fuel req) s fun ok t => ok = true ∧
      t.fdEntryTable = assign s.fdEntryTable req.structKey (some (entry.advance req.bufferSize)) ∧
      Stored m (volume m t.fat) h dir place (bytes.take entry.currOffset ++ payload req) := by
  subst hh hdir
  obtain ⟨data, hdata⟩ := isSome_iff_exists.mp hbuf
  obtain ⟨⟨l, hl, hinside, hroom⟩, hsmall⟩ := hspace
  refine (ends_get s).bind ?_
  rintro _ _ ⟨rfl, rfl⟩
  rename_i s
  simp only [hentry, hwritable, ne_eq, not_true_eq_false, if_false]
  refine (ends_deref hdata s).bind ?_
  rintro _ _ ⟨rfl, rfl⟩
  refine (ends_onVolume (writeFileAtOffset_fills hm hheap _ hl hinside hroom hfuel)).bind ?_
  rintro _ _ ⟨fat, rfl, rfl, hfat, l', hfill, hcover, -⟩
  rw [if_pos rfl]
  refine (ends_modify _ _).bind ?_
  rintro _ _ rfl
  obtain ⟨⟨dirs, hdirs, hfind⟩, hstored'⟩ := hstored.write hl hfill hcover hoff hsmall
  obtain ⟨hfile, hdir, -⟩ := entry.advance_clusters req.bufferSize
  have hnonzero : entry.dirCluster ≠ 0 := by
    have hrange := hfat.inRange hdirs.used
    have hlow := hrange.1
    omega
  have hlen : dirs.length + 1 < fuel := by
    have hle := length_le_of_chain (hfat.volume ▸ hdirs)
    omega
  have hdirs' : Chain (volume m fat).cells
      (if (entry.advance req.bufferSize).dirCluster = 0 then m.rootCluster
        else (entry.advance req.bufferSize).dirCluster) dirs := by
    rw [hdir, if_neg hnonzero]
    exact hdirs
  refine (ends_onVolume (updateDirentSize_spec hm hfat.volume hdirs' hlen)).imp ?_
  rintro ok _ ⟨fat', rfl, v'', hfat', hresized⟩
  rw [hfile, hsize] at hresized
  cases hresized with
  | failed hfail => exact absurd hfail hheap
  | missing hmissing =>
    rw [hfind] at hmissing
    cases hmissing
  | found hfound =>
    cases hfind.symm.trans hfound
    rw [hfat'.volume]
    have hpayload : payload req = (List.range req.bufferSize).map fun i => data.getD i 0 := by
      rw [payload, hdata]
      rfl
    exact ⟨rfl, rfl, hpayload ▸ hstored'⟩

theorem grows_write (m : Mount) (req : Request) : Grows fun n => write m n req := by
  refine (grows_const _).bind fun s => ?_
  cases s.fdEntryTable req.structKey with
  | none => exact grows_const _
  | some entry =>
    by_cases hflags : entry.flags &&& oRdonly ≠ 0
    · simp only [if_pos hflags]
      exact grows_const _
    · simp only [if_neg hflags]
      refine (grows_const _).bind fun data => ?_
      refine (grows_onVolume (grows_writeFileAtOffset m _ _ _ _)).bind fun ok => ?_
      cases ok with
      | false => exact grows_const _
      | true =>
        refine (grows_const _).bind fun _ => ?_
        exact grows_onVolume (grows_updateDirentSize m _ _ _)

section

/-- The descriptor can be written to, has the size of the file, and is at its end if it appends. -/
structure OnFile (s : State) (fd h dir : ℕ) (bytes : List UInt8) (entry : FdEntry) : Prop where
  isOpen : s.fdEntryTable fd = some entry
  file : entry.fileCluster = h
  directory : entry.dirCluster = dir
  writable : entry.flags &&& oRdonly = 0
  size : entry.size = bytes.length
  offset : entry.flags &&& oAppend ≠ 0 → entry.currOffset = bytes.length

/-- A WRITE with space for it, on a descriptor that appends or is at the beginning of the file. -/
structure WriteFits (m : Mount) (fd : ℕ) (s : State) (work : Work) : Prop where
  type : work.req.requestType = .write
  key : work.req.structKey = fd
  buf : work.req.buf.isSome = true
  space : ∀ entry, s.fdEntryTable fd = some entry → Space m s entry work.req.bufferSize
  mode : ∀ entry, s.fdEntryTable fd = some entry →
    entry.flags &&& oAppend ≠ 0 ∨ entry.currOffset = 0

/-- What a file has after a write through a descriptor. -/
def written (entry : FdEntry) (bytes new : List UInt8) : List UInt8 :=
  (if entry.flags &&& oAppend ≠ 0 then bytes else []) ++ new

variable (hm : Ready m) (hheap : ¬HeapFails m)
  (hstored : Stored m (volume m s.fat) h dir place bytes)
  (hon : OnFile s fd h dir bytes entry) (hfits : WriteFits m fd s work)
include hm hheap hstored hon hfits

theorem serves_write : ∃ t, Serves m s work (reply work.req true) t ∧
    Stored m (volume m t.fat) h dir place (written entry bytes (payload work.req)) ∧
    t.fdEntryTable = assign s.fdEntryTable fd (some (entry.advance work.req.bufferSize)) ∧
    OnFile t fd h dir (written entry bytes (payload work.req))
      (entry.advance work.req.bufferSize) := by
  obtain ⟨hopen, hh, hdir, hwritable, hsize, hoff⟩ := hon
  obtain ⟨htype, rfl, hbuf, hspace, hmode⟩ := hfits
  obtain ⟨hfile, hdirectory, hflags⟩ := entry.advance_clusters work.req.bufferSize
  have hsmall := (hspace entry hopen).small
  have hpayload : (payload work.req).length = work.req.bufferSize := by simp [payload]
  -- what is kept of the file, and the fields of the entry, in the two modes
  obtain ⟨hstart, hkept, hadvanced, hmoved⟩ : entry.currOffset ≤ bytes.length ∧
      bytes.take entry.currOffset ++ payload work.req = written entry bytes (payload work.req) ∧
      (entry.advance work.req.bufferSize).size = entry.currOffset + work.req.bufferSize ∧
      (entry.flags &&& oAppend ≠ 0 → (entry.advance work.req.bufferSize).currOffset =
        entry.currOffset + work.req.bufferSize) := by
    by_cases happend : entry.flags &&& oAppend ≠ 0
    · have hend := hoff happend
      rw [hend] at hsmall
      simp only [written, FdEntry.advance, if_pos happend, hend, hsize, take_length, u32,
        Nat.mod_eq_of_lt hsmall]
      exact ⟨le_refl _, trivial, trivial, fun _ => trivial⟩
    · have hzero := (hmode entry hopen).resolve_left happend
      simp only [written, FdEntry.advance, if_neg happend, hzero, take_zero, zero_add]
      exact ⟨Nat.zero_le _, trivial, trivial, fun h => absurd h happend⟩
  have hlen : (written entry bytes (payload work.req)).length =
      entry.currOffset + work.req.bufferSize := by
    rw [← hkept, length_append, length_take, hpayload]
    omega
  have hfuel : work.req.bufferSize < work.req.bufferSize + m.maximumClusterSize + 2 := by omega
  have hfuel' : m.maximumClusterSize + 1 < work.req.bufferSize + m.maximumClusterSize + 2 := by omega
  obtain ⟨ok, t, hrun, rfl, htable, hstored'⟩ := write_spec hm hheap hstored hopen hh hdir hwritable
    hbuf (hspace entry hopen) hstart hadvanced hfuel hfuel'
  rw [hkept] at hstored'
  refine ⟨t, ⟨work.req.bufferSize + m.maximumClusterSize + 2, ?_⟩, hstored', htable, ?_⟩
  · simp only [fsHandleRequest, htype]
    show (write m (work.req.bufferSize + m.maximumClusterSize + 2) work.req s).bind _ = _
    rw [hrun]
    rfl
  · refine ⟨by rw [htable, assign_same], hfile.trans hh, hdirectory.trans hdir,
      by rw [hflags, hwritable], hadvanced.trans hlen.symm, fun happend => ?_⟩
    rw [hflags] at happend
    exact (hmoved happend).trans hlen.symm

theorem Serves.write {r : Reply} (hserves : Serves m s work r t) : r.ok = true ∧
    Stored m (volume m t.fat) h dir place (written entry bytes (payload work.req)) ∧
    t.fdEntryTable = assign s.fdEntryTable fd (some (entry.advance work.req.bufferSize)) ∧
    OnFile t fd h dir (written entry bytes (payload work.req))
      (entry.advance work.req.bufferSize) := by
  obtain ⟨fuel, hserve⟩ := hserves
  obtain ⟨u, ⟨fuel', hserve'⟩, hwrote⟩ := serves_write hm hheap hstored hon hfits
  have hgrows : Grows fun n => fsHandleRequest m n work.req work.given := by
    simp only [fsHandleRequest, hfits.type]
    exact (grows_write m work.req).map
  obtain ⟨rfl, rfl⟩ := Prod.mk.inj (hgrows.agree hserve hserve')
  exact ⟨rfl, hwrote⟩

end

/-- A descriptor that was opened on a file with these flags. -/
structure Opened (m : Mount) (s : State) (fd h dir : ℕ) (place : ℕ × ℕ) (bytes : List UInt8)
    (flags : ℕ) : Prop where
  stored : Stored m.toGeometry (volume m.toGeometry s.fat) h dir place bytes
  descriptor : ∃ entry, s.fdEntryTable fd = some entry ∧ entry.fileCluster = h ∧
    entry.dirCluster = dir ∧ entry.size = bytes.length ∧ entry.flags = flags ∧
    entry.currOffset = if flags &&& oAppend ≠ 0 then bytes.length else 0

theorem Opened.onFile (h' : Opened m s fd h dir place bytes flags)
    (hwritable : flags &&& oRdonly = 0) :
    ∃ entry, entry.flags = flags ∧ OnFile s fd h dir bytes entry := by
  obtain ⟨entry, hopen, hfile, hdir, hsize, rfl, hoff⟩ := h'.descriptor
  exact ⟨entry, rfl, hopen, hfile, hdir, hwritable, hsize, fun happend =>
    hoff.trans (if_pos happend)⟩

/-- What the writes through a descriptor with these flags leave in the file. -/
def concatenated (flags : ℕ) (old : List UInt8) (works : List Work) : List UInt8 :=
  (if flags &&& oAppend ≠ 0 ∨ works = [] then old else []) ++
    works.flatMap fun work => payload work.req

/-- The file and the descriptor after some writes. -/
structure Streamed (m : Mount) (fd h dir : ℕ) (place : ℕ × ℕ) (flags : ℕ) (old : List UInt8)
    (works : List Work) (s : State) : Prop where
  stored : Stored m (volume m s.fat) h dir place
    (concatenated flags old works)
  descriptor : ∃ entry, entry.flags = flags ∧
    OnFile s fd h dir (concatenated flags old works) entry ∧
    (flags &&& oAppend = 0 → works ≠ [] → entry.currOffset = (concatenated flags old works).length)

theorem Streamed.step (hm : Ready m) (hheap : ¬HeapFails m) {works : List Work}
    (hs : Streamed m fd h dir place flags old works s) (hfits : WriteFits m fd s work)
    (hstep : Step m s work t) : Streamed m fd h dir place flags old (works ++ [work]) t := by
  obtain ⟨hstored, entry, rfl, hon, hlast⟩ := hs
  obtain ⟨r, hserves⟩ := hstep
  obtain ⟨-, hstored', -, hon'⟩ := hserves.write hm hheap hstored hon hfits
  -- where a descriptor does not append, nothing was written before
  have hwrote : written entry (concatenated entry.flags old works) (payload work.req) =
      concatenated entry.flags old (works ++ [work]) := by
    by_cases happend : entry.flags &&& oAppend ≠ 0
    · simp [written, concatenated, happend]
    · have hzero := (hfits.mode entry hon.isOpen).resolve_left happend
      have hmode : entry.flags &&& oAppend = 0 := not_not.mp happend
      have hnone : (works.flatMap fun work => payload work.req) = [] := by
        by_cases hworks : works = []
        · rw [hworks]
          rfl
        · have hlen := hlast hmode hworks
          rw [hzero] at hlen
          simpa [concatenated, happend, hworks] using eq_nil_of_length_eq_zero hlen.symm
      simp [written, concatenated, hmode, hnone]
  rw [hwrote] at hstored' hon'
  obtain ⟨-, -, hflags⟩ := entry.advance_clusters work.req.bufferSize
  refine ⟨hstored', _, hflags, hon', fun hmode _ => ?_⟩
  have hsize := hon'.size
  rw [← hsize, FdEntry.advance, if_neg (not_not.mpr hmode)]

def writeRequest (bytes : List UInt8) : Work where
  req := (requestOf 5 (sysWrite 3 (some bytes) bytes.length)).getD Request.zero
  given := ⟨fun _ => 0, none⟩

/-- The first descriptor is on the file `A` in the root directory, which has one cluster. -/
@[mk_iff] structure SmallFile (s : State) (flags offset length : ℕ) : Prop where
  root : (volume (smallGeometry 4) s.fat).cells 2 = .last
  file : (volume (smallGeometry 4) s.fat).cells 3 = .last
  found : findSlot (smallGeometry 4) (volume (smallGeometry 4) s.fat) (fun e => e.cluster == 3) [2] =
    some (2, 0)
  live : (slot (volume (smallGeometry 4) s.fat) 2 0).Live
  size : (slot (volume (smallGeometry 4) s.fat) 2 0).size = length
  descriptor : ∃ entry ∈ s.fdEntryTable 3, entry.fileCluster = 3 ∧ entry.dirCluster = 2 ∧
    entry.size = length ∧ entry.flags = flags ∧ entry.currOffset = offset

instance (s : State) (flags offset length : ℕ) : Decidable (SmallFile s flags offset length) :=
  decidable_of_iff' _ (smallFile_iff ..)

theorem SmallFile.opened (hs : SmallFile s flags 0 0) :
    Opened (smallMount 4) s 3 3 2 (2, 0) [] flags := by
  obtain ⟨hroot, hfile, hfound, hlive, hsize, entry, hentry, hclus, hdir, hlen, hflags,
    hoff⟩ := hs
  refine ⟨⟨⟨[3], .last hfile, Nat.zero_le _, fun x hx => absurd hx (Nat.not_lt_zero x)⟩,
    ⟨[2], .last hroot, hfound⟩, hlive, hsize, ?_⟩,
    entry, hentry, hclus, hdir, hlen, hflags, ?_⟩
  · intro l k hl hk e he hek
    rw [hl.unique (.last hfile), mem_singleton] at he
    rw [hk.unique (.last hroot), mem_singleton] at hek
    omega
  · rw [hoff]
    split_ifs <;> rfl

theorem SmallFile.fits {offset length : ℕ} (hs : SmallFile s oAppend offset length)
    (hoff : offset < 512) (byte : UInt8) :
    WriteFits (smallMount 4) 3 s (writeRequest [byte]) := by
  obtain ⟨-, hfile, -, -, -, entry, hentry, hclus, -, -, hflags, rfl⟩ := hs
  have honly : ∀ other, s.fdEntryTable 3 = some other → other = entry := fun other hother =>
    Option.some.inj (hother.symm.trans hentry)
  refine ⟨rfl, rfl, rfl, fun other hother => ?_, fun other hother => ?_⟩
  · obtain rfl := honly other hother
    have hsize : clusterSize (smallMount 4).toGeometry = 512 := rfl
    refine ⟨⟨[3], by rw [hclus]; exact .last hfile, ?_, ?_⟩, ?_⟩
    · rw [hsize, Nat.div_eq_of_lt hoff]
      decide
    · rw [hsize, length_singleton, add_mul]
      show other.currOffset + 1 ≤ _
      omega
    · show other.currOffset + 1 < 2 ^ 32
      omega
  · obtain rfl := honly other hother
    rw [hflags]
    exact .inl (by decide)

theorem exists_written (flags : ℕ) {p : State → State → State → Bool} (h : (do
      let r ← fsHandleRequest (smallMount 4) 9 (openRequest oCreat).req ⟨fun _ => 0, none⟩
        (State.init emptyStart fun _ => none)
      let r₀ ← fsHandleRequest (smallMount 4) 9 (openRequest flags).req ⟨fun _ => 0, none⟩ r.2
      let r₁ ← fsHandleRequest (smallMount 4) 9 (writeRequest [65]).req ⟨fun _ => 0, none⟩ r₀.2
      let r₂ ← fsHandleRequest (smallMount 4) 9 (writeRequest [66]).req ⟨fun _ => 0, none⟩ r₁.2
      pure (p r₀.2 r₁.2 r₂.2)) = some true) :
    ∃ s₀ s₁ s₂, Run (Step (smallMount 4)) (State.init emptyStart fun _ => none)
      [openRequest oCreat, openRequest flags] s₀ ∧
      Step (smallMount 4) s₀ (writeRequest [65]) s₁ ∧
      Step (smallMount 4) s₁ (writeRequest [66]) s₂ ∧ p s₀ s₁ s₂ = true := by
  obtain ⟨⟨r, s⟩, hcreated, h⟩ := bind_eq_some_iff.mp h
  obtain ⟨⟨r₀, s₀⟩, hopened, h⟩ := bind_eq_some_iff.mp h
  obtain ⟨⟨r₁, s₁⟩, hfst, h⟩ := bind_eq_some_iff.mp h
  obtain ⟨⟨r₂, s₂⟩, hsnd, h⟩ := bind_eq_some_iff.mp h
  exact ⟨s₀, s₁, s₂, .cons ⟨r, 9, hcreated⟩ (.cons ⟨r₀, 9, hopened⟩ (.nil s₀)), ⟨r₁, 9, hfst⟩,
    ⟨r₂, 9, hsnd⟩, Option.some.inj h⟩

theorem Streamed.of_run (hm : Ready m) (hheap : ¬HeapFails m)
    (hopened : Opened m s₀ fd h dir place old flags) (hwritable : flags &&& oRdonly = 0)
    {works : List Work} (hrun : Run (Guarded (WriteFits m fd) (Step m)) s₀ works s) :
    Streamed m fd h dir place flags old works s := by
  have hstart : Streamed m fd h dir place flags old [] s₀ := by
    have hold : concatenated flags old [] = old := by simp [concatenated]
    obtain ⟨entry, hflags, hon⟩ := hopened.onFile hwritable
    refine ⟨?_, entry, hflags, ?_, fun _ h => absurd rfl h⟩
    · rw [hold]
      exact hopened.stored
    · rw [hold]
      exact hon
  exact hrun.trace (fun _ _ _ _ hs hstep => hs.step hm hheap hstep.1 hstep.2) hstart

variable {g : Geometry} {l : List ℕ}

/-- A READ request for `n` bytes leaves at most `n` bytes and a terminator in its buffer, the caller
gets nothing behind its `n` bytes, and unless the disk or the heap fails it gets the first `n` bytes
of the file. -/
def ReadFits (m : Mount) (req : Request) (out : Bool) (n : ℕ) (bytes : List UInt8) (r : Reply) :
    Prop :=
  let written := ((req.settle r).result out).out.getD []
  (r.buf.getD []).length ≤ n + 1 ∧ written.length ≤ n ∧
    (r.ok = false ∧ Fails m ∨
      r.ok = true ∧ (written = bytes.take n ∨ written = bytes.take n ++ [0]))

/-- A read of a descriptor fails with the disk or the heap, or copies the file to the buffer. -/
theorem read_outcome (hg : Sane m) (hentry : s.fdEntryTable req.structKey = some entry)
    (hbuf : req.buf.isSome = true ∨ entry.size = 0)
    (hl : Chain (volume m s.fat).cells entry.fileCluster l)
    (henough : entry.size ≤ l.length * clusterSize m) (given : Given) :
    Ends (read m (entry.size + 1) req given) s fun r _ => r = reply req false ∧ Fails m ∨
      r = ⟨true, req.structKey,
        req.buf.map fun _ => (List.range entry.size).map (content m (volume m s.fat) l),
        entry.size⟩ := by
  refine (ends_get s).bind ?_
  rintro _ _ ⟨rfl, rfl⟩
  rename_i s
  simp only [hentry]
  refine (ends_onVolume (allocateBuffer_outcome m s.fat)).bind ?_
  rintro _ _ ⟨_, rfl, ⟨hfail, rfl, rfl⟩ | ⟨-, rfl, rfl⟩⟩
  · exact ends_pure (.inl ⟨rfl, .inl ⟨_, hfail⟩⟩)
  refine (ends_onVolume (readFile_outcome hg.clusterSize_pos (Nat.lt_succ_self entry.size)
    given.stale _)).bind ?_
  rintro r _ ⟨fat, rfl, hlive, hread⟩
  have hfree : Ends (Fat.kfree s.fat.mallocs) fat fun _ _ => True :=
    ⟨(), _, if_pos (hlive ▸ mem_cons_self ..), trivial⟩
  rcases hread.content hg hl henough with ⟨rfl, hfail⟩ | ⟨filled, rfl, hbytes⟩
  · refine (ends_onVolume hfree).bind fun _ _ _ => ?_
    exact ends_pure (.inl ⟨rfl, hfail⟩)
  · have hcopied : req.buf.isSome = true ∨ bytesOf filled entry.size = [] :=
      hbuf.imp_right fun hsize => by simp [bytesOf, hsize]
    refine (ends_store hcopied _).bind ?_
    rintro _ _ ⟨rfl, rfl⟩
    refine (ends_onVolume hfree).bind fun _ _ _ => ends_pure (.inr ?_)
    have hsame : bytesOf filled entry.size =
        (List.range entry.size).map (content m (volume m s.fat) l) :=
      map_congr_left fun x hx => hbytes x (mem_range.mp hx)
    rw [hsame]

theorem grows_read (m : Mount) (req : Request) (given : Given) :
    Grows fun n => read m n req given := by
  refine (grows_const _).bind fun s => ?_
  cases s.fdEntryTable req.structKey with
  | none => exact grows_const _
  | some entry =>
    refine grows_option (grows_const _) fun block => ?_
    refine (grows_onVolume (grows_readFile m _ _ _)).bind fun r => ?_
    cases r <;> exact grows_const _

/-- A read that completes had a buffer to copy to, or nothing to copy. -/
theorem read_stores {given : Given} {fuel : ℕ} {r : Reply}
    (hentry : s.fdEntryTable req.structKey = some entry)
    (hrun : read m fuel req given s = some (r, t)) (hok : r.ok = true) :
    req.buf.isSome = true ∨ entry.size = 0 := by
  have hany : ∀ {α : Type} (p : Action α) (s : State), Returns p s fun _ _ => True :=
    fun _ _ _ _ _ => trivial
  have hstores : Returns (read m fuel req given) s fun r _ =>
      r.ok = true → req.buf.isSome = true ∨ entry.size = 0 := by
    refine (ends_get s).returns.bind ?_
    rintro _ _ ⟨rfl, rfl⟩
    simp only [hentry]
    refine (hany _ _).bind fun block u _ => ?_
    cases block with
    | none => exact returns_pure (by simp [reply])
    | some block =>
      refine (hany _ _).bind fun read u _ => ?_
      cases read with
      | none => exact (hany _ _).bind fun _ _ _ => returns_pure (by simp [reply])
      | some filled =>
        have hstore : Returns (store req.buf (bytesOf filled entry.size)) u fun _ _ =>
            req.buf.isSome = true ∨ entry.size = 0 := by
          intro copied v hcopied
          unfold store at hcopied
          split_ifs at hcopied with hnull
          cases hbuf : req.buf with
          | none => exact .inr (by simpa [bytesOf, hbuf] using hnull)
          | some data => exact .inl rfl
        exact hstore.bind fun _ _ h => (hany _ _).bind fun _ _ _ => returns_pure fun _ => h
  exact hstores r t hrun hok

/-- What `sys_read` asks the clerk for. -/
theorem requestOf_sysRead {pid n : ℕ} {buf : Option (List UInt8)}
    (hreq : requestOf pid (sysRead fd buf n) = some req) :
    req.structKey = fd ∧ req.requestType = .read ∧
      req.buf = buf.map fun bytes => bytes.take n ++ [0] := by
  unfold sysRead at hreq
  split_ifs at hreq
  · cases hreq
  · replace hreq : fsRequest pid .read fd buf n oRdonly = some req := hreq
    unfold fsRequest at hreq
    split at hreq
    · cases hreq
    · cases hreq
      exact ⟨rfl, rfl, rfl⟩

def onRoot : State :=
  { State.init emptyStart fun _ => none with
    fdEntryTable := fun _ => some ⟨0, 5, 3, 2, 2, 512, 0, 0, 0⟩ }

def readRequest (n : ℕ) : Request := (requestOf 5 (sysRead 3 (some []) n)).getD Request.zero

end Taavi.Fs
