import OxideBSD.Lib.Machine
import OxideBSD.Oxfs.Blocks

/-!
# Writing an oxfs file

What the walks of `write_inode_with` and `resize_inode_data` do to the files of a sound file system.

* `round_spec`: one round of either walk changes the bytes it covers and no others.
* `writeLoop_spec`: the rounds of a write; growing is writing zeros.
* `resizeInodeData_fails_iff`: a file cannot grow exactly if its inode has no place for a block of the
  gap, or fewer blocks are free than are missing of it.
* `read_after_write`: what a write counts is read back, and no other byte of any file changes.
* `sound_of_run`: a sound file system stays sound through any resizes and writes.
* `failed_write_unchanged_iff`: a write that returns an error has left the file as it was exactly
  if it did not begin past the end, or the gap could not be filled.  Otherwise the file has been
  resized (`failed_write_resized`).

A write past the end of a file is two things: `resize_inode_data` fills the gap with zeros and commits
a new size, and only then the walk takes the caller's bytes.  When the walk fails on its first round
the call returns an error, which says that nothing was written, but the new size stays.  A gap that
cannot be filled leaves no trace in any file: the blocks that were added lie past the end, where a
read does not go.
-/

set_option autoImplicit false

namespace OxideBSD.OxfsFiles

open Option

open Oxfs.Mount (blockSize directBlocks ptrsPerIndirect ptrsPerDoubleIndirect noBlock
  bitsPerBitmapBlock divCeil Block)
open PointerForest

namespace Fs

variable {fs fs' : Fs} {n index blk pos : ℕ} {size last len position : ℕ} {stopped : Option ℤ}
  {fill : Fill}

/-! ## Storing a block of a file -/

/-- The places of a file system do not depend on what its files' blocks hold. -/
theorem place_writeBlock (hs : fs.Sound) (hblk : fs.inodeBlockAt (fs.readInode n) index = some blk)
    (x : Block) {y : ℕ × Root} {p : List ℕ} (hp : p.length ≤ depth y) :
    (fs.writeBlock blk x).place y p = fs.place y p := by
  rw [inodeBlockAt_eq] at hblk
  obtain ⟨l, hl, hplace⟩ := bind_eq_some_iff.1 hblk
  have hlen : l.2.length = depth (n, l.1) := length_of_leaf hl
  have hslot : ∀ ⦃r q b⦄, q.length < depth r → fs.place r q = some b →
      slotAt (fs.writeBlock blk x).data b = slotAt fs.data b := by
    intro r q b hq hb
    have hne : b ≠ blk := by
      rintro rfl
      obtain ⟨rfl, rfl⟩ := hs.sole (Nat.le_of_lt hq) (Nat.le_of_eq hlen) hb hplace
      exact absurd hlen (Nat.ne_of_lt hq)
    funext i
    simp [slotAt, Function.update_of_ne hne]
  exact follow_congr rfl hslot hp

/-- Only the bytes in the block change. -/
theorem byteAt_writeBlock (hs : fs.Sound)
    (hblk : fs.inodeBlockAt (fs.readInode n) index = some blk) (x : Block) (m off : ℕ) :
    (fs.writeBlock blk x).byteAt m off =
      if m = n ∧ off / blockSize = index then some (x (off % blockSize)) else fs.byteAt m off := by
  have hat := hblk
  rw [inodeBlockAt_eq] at hat
  obtain ⟨l, hl, hplace⟩ := bind_eq_some_iff.1 hat
  have hlen : l.2.length = depth (n, l.1) := length_of_leaf hl
  rw [byteAt_eq, byteAt_eq]
  cases hl' : leaf (off / blockSize) with
  | none =>
    have hne : ¬(m = n ∧ off / blockSize = index) := by
      rintro ⟨-, rfl⟩
      rw [hl] at hl'
      cases hl'
    rw [if_neg hne]
    rfl
  | some l' =>
    have hlen' : l'.2.length = depth (m, l'.1) := length_of_leaf hl'
    rw [bind_some, place_writeBlock hs hblk x (Nat.le_of_eq hlen')]
    by_cases hself : m = n ∧ off / blockSize = index
    · obtain ⟨rfl, rfl⟩ := hself
      rw [hl] at hl'
      cases hl'
      simp [hplace]
    · rw [if_neg hself]
      refine map_congr fun c hc ↦ ?_
      have hne : c ≠ blk := by
        rintro rfl
        obtain ⟨hroot, hpath⟩ := hs.sole (Nat.le_of_eq hlen') (Nat.le_of_eq hlen) hc hplace
        have hll : l' = l := Prod.ext (congrArg Prod.snd hroot) hpath
        exact hself ⟨congrArg Prod.fst hroot, leaf_inj (hll ▸ hl') hl⟩
      rw [data_writeBlock, Function.update_of_ne hne]

theorem extends_writeBlock (hs : fs.Sound)
    (hblk : fs.inodeBlockAt (fs.readInode n) index = some blk) (x : Block) :
    Extends fs (fs.writeBlock blk x) := by
  have hthere : ∀ ⦃m off⦄, (fs.byteAt m off).isSome →
      ((fs.writeBlock blk x).byteAt m off).isSome := by
    intro m off hsome
    rw [byteAt_writeBlock hs hblk]
    split
    · rfl
    · exact hsome
  refine ⟨⟨hs.bound, ?_, fun y p b hp hb ↦ ?_, fun m off hoff ↦ ?_⟩, rfl, fun _ ↦ rfl, hthere,
    fun hc ↦ hc.writeBlock blk x⟩
  · intro r p r' p' b hp hp' hb hb'
    rw [← place, place_writeBlock hs hblk x hp] at hb
    rw [← place, place_writeBlock hs hblk x hp'] at hb'
    exact hs.sole hp hp' hb hb'
  · rw [place_writeBlock hs hblk x hp] at hb
    exact hs.used hp hb
  · exact hthere (hs.whole m off hoff)

/-- A file whose size alone is set keeps its blocks. -/
theorem place_setSize (hn : n < fs.count) (size : ℕ) (y : ℕ × Root) (p : List ℕ) :
    (fs.writeInode n { fs.readInode n with size := size }).place y p = fs.place y p := by
  have hroot : (fs.writeInode n { fs.readInode n with size := size }).root = fs.root := by
    funext z
    rw [root, root, readInode_writeInode hn]
    by_cases hz : z.1 = n
    · rw [if_pos hz, hz]
      cases z.2 <;> rfl
    · rw [if_neg hz]
  rw [place, place, hroot, data_writeInode]

theorem byteAt_setSize (hn : n < fs.count) (size m off : ℕ) :
    (fs.writeInode n { fs.readInode n with size := size }).byteAt m off = fs.byteAt m off := by
  rw [byteAt_eq, byteAt_eq, data_writeInode]
  simp only [place_setSize hn]

/-- A file may be given any size it has the blocks for. -/
theorem Sound.setSize (hs : fs.Sound) (hn : n < fs.count)
    (hwhole : ∀ off < size, (fs.byteAt n off).isSome) :
    (fs.writeInode n { fs.readInode n with size := size }).Sound := by
  refine ⟨by simpa using hs.bound, ?_, fun y p b hp hb ↦ ?_, fun m off hoff ↦ ?_⟩
  · intro r p r' p' b hp hp' hb hb'
    rw [← place, place_setSize hn] at hb hb'
    exact hs.sole hp hp' hb hb'
  · rw [place_setSize hn] at hb
    rw [used_writeInode]
    exact hs.used hp hb
  · rw [byteAt_setSize hn]
    rw [readInode_writeInode hn] at hoff
    by_cases hm : m = n
    · subst hm
      rw [if_pos rfl] at hoff
      exact hwhole off hoff
    · rw [if_neg hm] at hoff
      exact hs.whole m off hoff

/-! ## One round -/

theorem chunk_pos (h : pos < last) : 0 < chunk last pos := by
  have hmod : pos % blockSize < blockSize := Nat.mod_lt _ (by decide)
  rw [chunk]
  omega

theorem add_chunk_le (h : pos < last) : pos + chunk last pos ≤ last := by
  rw [chunk]
  omega

theorem mod_add_chunk_le (last pos : ℕ) : pos % blockSize + chunk last pos ≤ blockSize := by
  have hmod : pos % blockSize < blockSize := Nat.mod_lt _ (by decide)
  rw [chunk]
  omega

/-- Offsets in a round lie in its block, one after the other. -/
theorem mod_eq_of_round {off : ℕ} (hlen : pos % blockSize + len ≤ blockSize) (hpos : pos ≤ off)
    (hoff : off < pos + len) : off / blockSize = pos / blockSize ∧
      off % blockSize = pos % blockSize + (off - pos) := by
  rw [blockSize] at *
  omega

/-- From `fs` to `fs'` the bytes of `n` from `pos` to `pos'` have become those of `f`, and no other
byte that was there has changed. -/
structure Wrote (fs fs' : Fs) (n pos pos' : ℕ) (f : ℕ → UInt8) : Prop where
  written : ∀ ⦃off⦄, pos ≤ off → off < pos' → fs'.byteAt n off = some (f off)
  kept : ∀ ⦃m off⦄, (fs.byteAt m off).isSome → ¬(m = n ∧ pos ≤ off ∧ off < pos') →
    fs'.byteAt m off = fs.byteAt m off

variable {pos' k : ℕ} {f : ℕ → UInt8}

theorem Wrote.trans {fs'' : Fs} {mid : ℕ} {g : ℕ → UInt8} (h : Wrote fs fs' n pos mid g)
    (hg : ∀ off, pos ≤ off → off < mid → g off = f off) (h' : Wrote fs' fs'' n mid pos' f)
    (hmid : pos ≤ mid) (hpos' : mid ≤ pos') : Wrote fs fs'' n pos pos' f := by
  refine ⟨fun off hpos hoff ↦ ?_, fun m off hsome hout ↦ ?_⟩
  · by_cases hlt : off < mid
    · have hbyte := h.written hpos hlt
      rw [h'.kept (by rw [hbyte]; rfl) (by omega), hbyte, hg off hpos hlt]
    · exact h'.written (Nat.le_of_not_lt hlt) hoff
  · have hbyte := h.kept hsome (by omega)
    rw [h'.kept (by rwa [hbyte]) (by omega), hbyte]

theorem Wrote.there (h : Wrote fs fs' n pos pos' f) (hext : Extends fs fs')
    (hthere : ∀ off < pos, (fs.byteAt n off).isSome) : ∀ off < pos', (fs'.byteAt n off).isSome := by
  intro off hoff
  by_cases hlt : off < pos
  · exact hext.there (hthere off hlt)
  · rw [h.written (Nat.le_of_not_lt hlt) hoff]
    rfl

/-- **One round**: the file's block at `pos` is asked for and the bytes `xs` are put there.  Other
bytes of the files stay. -/
theorem round_spec {fs₁ : Fs} (hs : fs.Sound) (hn : n < fs.count)
    (h : fs.inodeEnsureBlockAt n (pos / blockSize) = (fs₁, some blk)) {xs : List UInt8}
    (hlen : xs.length = chunk last pos)
    (h' : fs' = fs₁.writeBlock blk (Bytes.put (fs₁.data blk) (pos % blockSize) xs)) :
    Extends fs fs' ∧ Wrote fs fs' n pos (pos + chunk last pos) fun off ↦ xs.getD (off - pos) 0 := by
  obtain ⟨hholds, hresult⟩ := inodeEnsureBlockAt_spec hs hn h
  have hblk := hresult blk rfl
  have hext := hholds.toExtends.trans
    (extends_writeBlock hholds.sound hblk (Bytes.put (fs₁.data blk) (pos % blockSize) xs))
  subst h'
  refine ⟨hext, fun off hpos hoff ↦ ?_, fun m off hsome hout ↦ ?_⟩
  · obtain ⟨hdiv, hmod⟩ := mod_eq_of_round (mod_add_chunk_le last pos) hpos hoff
    rw [byteAt_writeBlock hholds.sound hblk, if_pos ⟨rfl, hdiv⟩, hmod, Bytes.put,
      if_pos (by omega), Nat.add_sub_cancel_left]
  · rw [byteAt_writeBlock hholds.sound hblk, ← hholds.held hsome]
    by_cases hself : m = n ∧ off / blockSize = pos / blockSize
    · obtain ⟨rfl, hdiv⟩ := hself
      have houter : ¬(pos % blockSize ≤ off % blockSize ∧
          off % blockSize < pos % blockSize + xs.length) := by
        have hpos := Nat.div_add_mod pos blockSize
        have hoff := Nat.div_add_mod off blockSize
        rw [hdiv] at hoff
        omega
      rw [if_pos ⟨rfl, hdiv⟩, Bytes.put, if_neg houter, byteAt, hdiv, hblk]
      rfl
    · rw [if_neg hself]

/-! ## Writing -/

/-- The bytes a fill gives are those of `src`. -/
def Fill.From (fill : Fill) (src : ℕ → UInt8) : Prop :=
  ∀ written share bytes, fill written share = .ok bytes → ∀ i < share, bytes i = src (written + i)

/-- The fill of a gap. -/
def zeros : Fill := fun _ _ ↦ .ok fun _ ↦ 0

/-- From `fs` to `fs'` the walk of a write has come from `pos` to `pos'`, and has stopped there. -/
structure Walked (fs fs' : Fs) (n position pos pos' last : ℕ) (fill : Fill) (stopped : Option ℤ) :
    Prop where
  ext : Extends fs fs'
  there : ∀ off < pos', (fs'.byteAt n off).isSome
  le : pos ≤ pos'
  le_last : pos' ≤ max pos last
  done : stopped = none → last ≤ pos'
  kept : pos' = pos → Keeps fs fs'
  wrote : ∀ ⦃src⦄, fill.From src → Wrote fs fs' n pos pos' fun off ↦ src (off - position)

theorem Holds.walked (h : Holds fs fs') (hthere : ∀ off < pos, (fs.byteAt n off).isSome)
    (hdone : stopped = none → last ≤ pos) : Walked fs fs' n position pos pos last fill stopped :=
  ⟨h.toExtends, fun off hoff ↦ h.there (hthere off hoff), le_rfl, Nat.le_max_left _ _, hdone,
    fun _ ↦ h.toKeeps, fun _ _ ↦ ⟨fun off hpos hoff ↦ by omega, fun _ _ hsome _ ↦ h.held hsome⟩⟩

/-- The rounds of a write.  One that has come no further has changed no file. -/
theorem writeLoop_spec : ∀ {fuel : ℕ} {fs : Fs} {pos : ℕ}, fs.Sound → n < fs.count →
    position ≤ pos → last ≤ pos + fuel → (∀ off < pos, (fs.byteAt n off).isSome) →
    writeLoop n position last fill fuel fs pos = (fs', pos', stopped) →
    Walked fs fs' n position pos pos' last fill stopped
  | 0, fs, pos, hs, _, _, hfuel, hthere, h => by
    cases h
    exact (Holds.refl hs).walked hthere fun _ ↦ hfuel
  | fuel + 1, fs, pos, hs, hn, hstart, hfuel, hthere, h => by
    rw [writeLoop] at h
    by_cases hpos : pos < last
    · rw [if_pos hpos] at h
      rcases hens : fs.inodeEnsureBlockAt n (pos / blockSize) with ⟨fs₁, _ | blk⟩
      · rw [hens] at h
        cases h
        exact (inodeEnsureBlockAt_spec hs hn hens).1.walked hthere nofun
      · rw [hens] at h
        rcases hfill : fill (pos - position) (chunk last pos) with e | share
        · rw [hfill] at h
          cases h
          exact (inodeEnsureBlockAt_spec hs hn hens).1.walked hthere nofun
        · rw [hfill] at h
          have hchunk := chunk_pos hpos
          have hnext := add_chunk_le hpos
          obtain ⟨hext, hbytes⟩ :=
            round_spec hs hn hens (Bytes.length_bytes share 0 (chunk last pos)) rfl
          obtain ⟨hext', hthere', hle, hmax, hlast, -, hwrote⟩ := writeLoop_spec hext.sound
            (hext.count ▸ hn) (by omega) (by omega) (hbytes.there hext hthere) h
          refine ⟨hext.trans hext', hthere', by omega, by omega, hlast, fun heq ↦ by omega,
            fun src hsrc ↦ hbytes.trans (fun off hpos hoff ↦ ?_) (hwrote hsrc) (by omega) hle⟩
          have hi : off - pos < chunk last pos := by omega
          have hoff' : pos - position + (off - pos) = off - position := by omega
          rw [← hoff', ← hsrc _ _ _ hfill _ hi]
          simp [Bytes.bytes, hi]
    · rw [if_neg hpos] at h
      cases h
      exact (Holds.refl hs).walked hthere fun _ ↦ Nat.le_of_not_lt hpos

/-! ## Growing -/

/-- Growing is writing zeros. -/
theorem growLoop_eq_writeLoop (n position newSize : ℕ) : ∀ fuel fs pos,
    growLoop n newSize fuel fs pos = (writeLoop n position newSize zeros fuel fs pos).map id
      fun r ↦ r.2.isNone
  | 0, _, _ => rfl
  | fuel + 1, fs, pos => by
    rw [growLoop, writeLoop]
    by_cases hpos : pos < newSize
    · rw [if_pos hpos, if_pos hpos]
      rcases fs.inodeEnsureBlockAt n (pos / blockSize) with ⟨fs₁, _ | blk⟩
      · rfl
      · have hzeros : Bytes.bytes (fun _ ↦ 0) 0 (chunk newSize pos) =
            List.replicate (chunk newSize pos) 0 := by simp [Bytes.bytes]
        simp only [zeros, hzeros, growLoop_eq_writeLoop n position newSize fuel]
    · rw [if_neg hpos, if_neg hpos]
      rfl

/-- A resize writes zeros past the end of the file, and unless that fails sets its size. -/
theorem resizeInodeData_cases {ok : Bool} (hs : fs.Sound) (hn : n < fs.count)
    (h : fs.resizeInodeData n size = (fs', ok)) : ∃ fs₁, Keeps fs fs₁ ∧
      (ok = true →
        Wrote fs fs₁ n (fs.readInode n).size (max (fs.readInode n).size size) fun _ ↦ 0) ∧
      fs' = if ok then fs₁.writeInode n { fs₁.readInode n with size := size } else fs₁ := by
  rw [resizeInodeData, growLoop_eq_writeLoop n (fs.readInode n).size] at h
  rcases hloop : writeLoop n (fs.readInode n).size size zeros (size - (fs.readInode n).size) fs
    (fs.readInode n).size with ⟨fs₁, pos, stopped⟩
  obtain ⟨hext, -, hle, hmax, hdone, -, hwrote⟩ :=
    writeLoop_spec hs hn le_rfl (by omega) (hs.whole n) hloop
  have hzeros := @hwrote (fun _ ↦ 0) (by rintro _ _ _ ⟨⟩ i -; rfl)
  have hkeeps : Keeps fs fs₁ := by
    refine ⟨hext, fun m off hoff ↦ hzeros.kept (hs.whole m off hoff) ?_⟩
    rintro ⟨rfl, hend, -⟩
    omega
  rw [hloop] at h
  cases stopped with
  | none =>
    cases h
    have hlast := hdone rfl
    obtain rfl : pos = max (fs.readInode n).size size := by omega
    exact ⟨_, hkeeps, fun _ ↦ hzeros, rfl⟩
  | some e =>
    cases h
    exact ⟨_, hkeeps, nofun, rfl⟩

/-- A resize that fails changes no file. -/
theorem resizeInodeData_fails (hs : fs.Sound) (hn : n < fs.count)
    (h : fs.resizeInodeData n size = (fs', false)) : Keeps fs fs' := by
  obtain ⟨fs₁, hkeeps, -, rfl⟩ := resizeInodeData_cases hs hn h
  exact hkeeps

/-- A resize that succeeds gives the file its new size. -/
theorem resizeInodeData_succeeds (hs : fs.Sound) (hn : n < fs.count)
    (h : fs.resizeInodeData n size = (fs', true)) :
    fs'.Sound ∧ fs'.count = fs.count ∧ (fs'.readInode n).size = size := by
  obtain ⟨fs₁, hkeeps, hdone, rfl⟩ := resizeInodeData_cases hs hn h
  have hn₁ : n < fs₁.count := hkeeps.count ▸ hn
  refine ⟨hkeeps.sound.setSize hn₁ fun off hoff ↦
    (hdone rfl).there hkeeps.toExtends (hs.whole n) off (by omega), ?_, ?_⟩
  · rw [if_pos rfl, count_writeInode, hkeeps.count]
  · rw [if_pos rfl, readInode_writeInode hn₁, if_pos rfl]

/-! ## When a file can grow -/

/-- The blocks that an inode has places for. -/
def maxFileBlocks : ℕ := directBlocks + ptrsPerIndirect + ptrsPerDoubleIndirect

/-- The blocks of a file that hold its bytes from `size` to `position`. -/
def gap (size position : ℕ) : Finset ℕ :=
  Finset.Ico (size / blockSize) (divCeil position blockSize)

theorem leaf_eq_none : leaf index = none ↔ maxFileBlocks ≤ index := by
  rw [leaf, maxFileBlocks]
  split_ifs <;> simp <;> omega

theorem mul_blockSize_lt (h : index < divCeil size blockSize) : index * blockSize < size := by
  rw [divCeil, blockSize] at h
  rw [blockSize]
  omega

theorem missing_congr {s : Finset ℕ}
    (h : ∀ ⦃y p⦄, p.length ≤ depth y → fs'.place y p = fs.place y p) :
    fs'.missing n s = fs.missing n s :=
  Finset.filter_congr fun y hy ↦ by rw [h (length_of_mem_places hy)]

/-- Nothing is missing of a file whose bytes are there. -/
theorem missing_eq_empty {s : Finset ℕ} (hs : ∀ index ∈ s, index < divCeil size blockSize)
    (hthere : ∀ off < size, (fs.byteAt n off).isSome) : fs.missing n s = ∅ := by
  refine Finset.eq_empty_of_forall_notMem fun y hy ↦ ?_
  obtain ⟨hmem, hempty⟩ := mem_missing.1 hy
  obtain ⟨index, hindex, l, hl, hroot, hsuffix⟩ := mem_places.1 hmem
  have hbyte := hthere _ (mul_blockSize_lt (hs index hindex))
  rw [byteAt_eq, Nat.mul_div_cancel _ (by decide), hl, bind_some, isSome_map] at hbyte
  have hsome := follow_of_suffix hsuffix hbyte
  rw [hroot, ← place, hempty] at hsome
  cases hsome

/-- The rounds of growing take what is missing, and only stop early where nothing is left. -/
theorem growLoop_spends {s : Finset ℕ} {fuel : ℕ} {ok : Bool} (hs : fs.Sound) (hn : n < fs.count)
    (hmem : ∀ index, pos / blockSize ≤ index → index < divCeil size blockSize → index ∈ s)
    (h : growLoop n size fuel fs pos = (fs', ok)) : Spends n s fs fs' ∧ Extends fs fs' ∧
      (ok = false → (∃ index ∈ s, leaf index = none) ∨ fs'.Stuck n s) := by
  induction fuel generalizing fs pos with
  | zero =>
    cases h
    exact ⟨rfl, .refl hs, nofun⟩
  | succ fuel ih =>
    rw [growLoop] at h
    by_cases hpos : pos < size
    · have hindex : pos / blockSize ∈ s := hmem _ le_rfl (by rw [divCeil, blockSize]; omega)
      rw [if_pos hpos] at h
      rcases hens : fs.inodeEnsureBlockAt n (pos / blockSize) with ⟨fs₁, _ | blk⟩
      · rw [hens] at h
        cases h
        obtain ⟨hadds, -, hstuck⟩ := inodeEnsureBlockAt_adds hs hn hindex hens
        exact ⟨hadds.spends, (hadds.holds hs).toExtends,
          fun _ ↦ (hstuck rfl).imp_left fun hnone ↦ ⟨_, hindex, hnone⟩⟩
      · rw [hens] at h
        obtain ⟨hadds, hresult, -⟩ := inodeEnsureBlockAt_adds hs hn hindex hens
        have hs₁ := (hadds.holds hs).sound
        have hblk := hresult blk rfl
        have hext := (hadds.holds hs).toExtends.trans (extends_writeBlock hs₁ hblk
          (Bytes.put (fs₁.data blk) (pos % blockSize) (List.replicate (chunk size pos) 0)))
        obtain ⟨hspends, hext', hstuck⟩ := ih hext.sound (hext.count ▸ hn)
          (fun index hle ↦ hmem index (le_trans (Nat.div_le_div_right (Nat.le_add_right _ _)) hle)) h
        refine ⟨hadds.spends.trans ?_, hext.trans hext', hstuck⟩
        -- what a block of the file holds is no pointer
        rw [Spends] at hspends ⊢
        rwa [missing_congr fun _ _ ↦ place_writeBlock hs₁ hblk _] at hspends
    · rw [if_neg hpos] at h
      cases h
      exact ⟨rfl, .refl hs, nofun⟩

theorem resizeInodeData_spends {ok : Bool} (hs : fs.Sound) (hn : n < fs.count)
    (h : fs.resizeInodeData n size = (fs', ok)) :
    Spends n (gap (fs.readInode n).size size) fs fs' ∧ (fs.Counted → fs'.Counted) ∧
      (ok = false → maxFileBlocks < divCeil size blockSize ∨
        fs'.Stuck n (gap (fs.readInode n).size size)) := by
  rw [resizeInodeData] at h
  rcases hloop : growLoop n size (size - (fs.readInode n).size) fs (fs.readInode n).size
    with ⟨fs₁, grown⟩
  obtain ⟨hspends, hext, hstuck⟩ := growLoop_spends (s := gap (fs.readInode n).size size) hs hn
    (fun index hle hlt ↦ Finset.mem_Ico.2 ⟨hle, hlt⟩) hloop
  rw [hloop] at h
  cases grown with
  | false =>
    cases h
    refine ⟨hspends, hext.counted, fun _ ↦ (hstuck rfl).imp_left ?_⟩
    rintro ⟨index, hindex, hnone⟩
    exact lt_of_le_of_lt (leaf_eq_none.1 hnone) (Finset.mem_Ico.1 hindex).2
  | true =>
    cases h
    refine ⟨?_, fun hc ↦ counted_writeInode.2 (hext.counted hc), nofun⟩
    rw [Spends] at hspends ⊢
    rwa [missing_congr fun y p _ ↦ place_setSize (hext.count ▸ hn) size y p,
      freeBlocks_congr (used_writeInode _ _ _) (dataBlocks_writeInode _ _ _)]

/-- **When a file cannot grow**: its inode has no place for a block of the gap, or fewer blocks are
free than are missing of the gap. -/
theorem resizeInodeData_fails_iff (hs : fs.Sound) (hc : fs.Counted) (hn : n < fs.count) :
    (fs.resizeInodeData n size).2 = false ↔ maxFileBlocks < divCeil size blockSize ∨
      fs.freeBlocks.card < (fs.missing n (gap (fs.readInode n).size size)).card := by
  rcases h : fs.resizeInodeData n size with ⟨fs', ok⟩
  obtain ⟨hspends, hcounted, hstuck⟩ := resizeInodeData_spends hs hn h
  rw [Spends] at hspends
  cases ok with
  | false =>
    refine iff_of_true rfl ((hstuck rfl).imp_right ?_)
    rintro ⟨hmissing, hfree⟩
    have hpos := Finset.card_pos.2 hmissing
    rw [hfree (hcounted hc), Finset.card_empty] at hspends
    omega
  | true =>
    obtain ⟨hs', -, hsize⟩ := resizeInodeData_succeeds hs hn h
    have hthere : ∀ off < size, (fs'.byteAt n off).isSome := fun off hoff ↦
      hs'.whole n off (by rwa [hsize])
    refine iff_of_false Bool.noConfusion (not_or.2 ⟨fun hmax ↦ ?_, ?_⟩)
    · have hbyte := hthere _ (mul_blockSize_lt hmax)
      rw [byteAt_eq, Nat.mul_div_cancel _ (by decide), leaf_eq_none.2 le_rfl] at hbyte
      cases hbyte
    · have hempty : fs'.missing n (gap (fs.readInode n).size size) = ∅ :=
        missing_eq_empty (fun index hindex ↦ (Finset.mem_Ico.1 hindex).2) hthere
      rw [hempty, Finset.card_empty] at hspends
      omega

/-! ## Writing past the end -/

/-- The file system in which the walk of a write begins, and whether it begins. -/
def opened (fs : Fs) (n position : ℕ) : Fs × Bool :=
  if (fs.readInode n).size < position then fs.resizeInodeData n position else (fs, true)

/-- After a walk that began the file has its position at least as its size. -/
theorem opened_succeeds (hs : fs.Sound) (hn : n < fs.count)
    (h : fs.opened n position = (fs', true)) : fs'.Sound ∧ fs'.count = fs.count ∧
      (fs'.readInode n).size = max (fs.readInode n).size position := by
  rw [opened] at h
  by_cases hpast : (fs.readInode n).size < position
  · rw [if_pos hpast] at h
    rw [Nat.max_eq_right (Nat.le_of_lt hpast)]
    exact resizeInodeData_succeeds hs hn h
  · rw [if_neg hpast] at h
    cases h
    exact ⟨hs, rfl, (Nat.max_eq_left (Nat.le_of_not_lt hpast)).symm⟩

/-- What a write is made of: it does not begin, or its walk stops somewhere. -/
theorem writeInodeWith_cases {result : Except ℤ ℕ}
    (h : fs.writeInodeWith n position len fill = (fs', result)) :
    (fs.opened n position = (fs', false) ∧ result = .error (-ENOSPC)) ∨
      ∃ fs₁ fs₂ pos stopped, fs.opened n position = (fs₁, true) ∧
        writeLoop n position (position + len) fill len fs₁ position = (fs₂, pos, stopped) ∧
        fs' = fs₂.coverSize n pos ∧
        result = match stopped with
          | some e => if pos = position then .error e else .ok (pos - position)
          | none => .ok (pos - position) := by
  rcases hopen : fs.opened n position with ⟨fs₁, _ | _⟩
  · rw [writeInodeWith, ← opened, hopen] at h
    cases h
    exact .inl ⟨rfl, rfl⟩
  · rcases hloop : writeLoop n position (position + len) fill len fs₁ position
      with ⟨fs₂, pos, stopped⟩
    rw [writeInodeWith, ← opened, hopen] at h
    simp only [hloop] at h
    refine .inr ⟨fs₁, fs₂, pos, stopped, rfl, hloop, ?_⟩
    cases stopped with
    | none =>
      cases h
      exact ⟨rfl, rfl⟩
    | some e =>
      by_cases hpos : pos = position
      · simp only [if_pos hpos] at h ⊢
        cases h
        exact ⟨rfl, rfl⟩
      · simp only [if_neg hpos] at h ⊢
        cases h
        exact ⟨rfl, rfl⟩

/-- What the walk of a write that began does. -/
theorem opened_walk {fs₁ fs₂ : Fs} (hs : fs.Sound) (hn : n < fs.count)
    (hopen : fs.opened n position = (fs₁, true))
    (hloop : writeLoop n position (position + len) fill len fs₁ position = (fs₂, pos, stopped)) :
    Walked fs₁ fs₂ n position position pos (position + len) fill stopped ∧ n < fs₂.count ∧
      position ≤ (fs₂.readInode n).size := by
  obtain ⟨hs₁, hcount, hsize⟩ := opened_succeeds hs hn hopen
  have hn₁ : n < fs₁.count := hcount ▸ hn
  have hwalk := writeLoop_spec hs₁ hn₁ le_rfl le_rfl
    (fun off hoff ↦ hs₁.whole n off (by omega)) hloop
  refine ⟨hwalk, hwalk.ext.count ▸ hn₁, ?_⟩
  rw [hwalk.ext.size]
  omega

/-- After a walk of a write the file may be given the size it covers. -/
theorem Sound.coverSize (hs : fs.Sound) (hn : n < fs.count)
    (hthere : ∀ off < pos, (fs.byteAt n off).isSome) : (fs.coverSize n pos).Sound := by
  refine hs.setSize hn fun off hoff ↦ ?_
  rcases Nat.lt_or_ge off (fs.readInode n).size with hlt | hge
  · exact hs.whole n off hlt
  · exact hthere off (by omega)

theorem coverSize_of_le (h : pos ≤ (fs.readInode n).size) : fs.coverSize n pos = fs := by
  rw [Fs.coverSize, Nat.max_eq_left h]
  exact writeInode_readInode fs n

/-- A write keeps a file system sound, whatever it returns. -/
theorem writeInodeWith_sound {result : Except ℤ ℕ} (hs : fs.Sound) (hn : n < fs.count)
    (h : fs.writeInodeWith n position len fill = (fs', result)) : fs'.Sound := by
  rcases writeInodeWith_cases h with ⟨hopen, -⟩ | ⟨fs₁, fs₂, pos, stopped, hopen, hloop, rfl, -⟩
  · rw [opened] at hopen
    by_cases hpast : (fs.readInode n).size < position
    · rw [if_pos hpast] at hopen
      exact (resizeInodeData_fails hs hn hopen).sound
    · rw [if_neg hpast] at hopen
      cases hopen
  · obtain ⟨hwalk, hn₂, -⟩ := opened_walk hs hn hopen hloop
    exact hwalk.ext.sound.coverSize hn₂ hwalk.there

theorem writeInodeWith_counted {result : Except ℤ ℕ} (hs : fs.Sound) (hc : fs.Counted)
    (hn : n < fs.count) (h : fs.writeInodeWith n position len fill = (fs', result)) :
    fs'.Counted := by
  have hopened : ∀ {fs₁ ok}, fs.opened n position = (fs₁, ok) → fs₁.Counted := by
    intro fs₁ ok hopen
    rw [opened] at hopen
    split at hopen
    · exact (resizeInodeData_spends hs hn hopen).2.1 hc
    · cases hopen
      exact hc
  rcases writeInodeWith_cases h with ⟨hopen, -⟩ | ⟨fs₁, fs₂, pos, stopped, hopen, hloop, rfl, -⟩
  · exact hopened hopen
  · obtain ⟨hwalk, -, -⟩ := opened_walk hs hn hopen hloop
    exact counted_writeInode.2 (hwalk.ext.counted (hopened hopen))

/-- A write that fails did not begin, or has changed no file after it began. -/
theorem writeInodeWith_fails {e : ℤ} (hs : fs.Sound) (hn : n < fs.count)
    (h : fs.writeInodeWith n position len fill = (fs', .error e)) :
    fs.opened n position = (fs', false) ∨
      ∃ fs₁, fs.opened n position = (fs₁, true) ∧ Keeps fs₁ fs' := by
  rcases writeInodeWith_cases h with
    ⟨hopen, -⟩ | ⟨fs₁, fs₂, pos, stopped, hopen, hloop, rfl, hresult⟩
  · exact .inl hopen
  · obtain ⟨hwalk, -, hsize⟩ := opened_walk hs hn hopen hloop
    have hpos : pos = position := by
      by_contra hne
      cases stopped with
      | none => cases hresult
      | some e' =>
        simp only [if_neg hne] at hresult
        cases hresult
    refine .inr ⟨fs₁, hopen, ?_⟩
    rw [hpos, coverSize_of_le hsize]
    exact hwalk.kept hpos

/-! ## Reading -/

/-- What a file holds at `off`: zero past its end. -/
def content (fs : Fs) (m off : ℕ) : UInt8 :=
  if off < (fs.readInode m).size then (fs.byteAt m off).getD 0 else 0

theorem byteAt_eq_content (hs : fs.Sound) (m off : ℕ) (h : off < (fs.readInode m).size) :
    fs.byteAt m off = some (fs.content m off) := by
  obtain ⟨v, hv⟩ := isSome_iff_exists.1 (hs.whole m off h)
  rw [content, if_pos h, hv]
  rfl

theorem readLoop_eq (h : ∀ off < last, fs.byteAt n off = some (f off)) : ∀ {fuel pos : ℕ},
    last ≤ pos + fuel → fs.readLoop (fs.readInode n) last fuel pos = Bytes.bytes f pos (last - pos)
  | 0, pos, hfuel => by
    rw [Nat.sub_eq_zero_of_le (Nat.add_zero pos ▸ hfuel)]
    rfl
  | fuel + 1, pos, hfuel => by
    rw [readLoop]
    by_cases hpos : pos < last
    · have hchunk := chunk_pos hpos
      have hnext := add_chunk_le hpos
      have hbyte : ∀ i < chunk last pos, (fs.inodeBlockAt (fs.readInode n) (pos / blockSize)).map
          (fun b ↦ fs.data b (pos % blockSize + i)) = some (f (pos + i)) := by
        intro i hi
        obtain ⟨hdiv, hmod⟩ := mod_eq_of_round (mod_add_chunk_le last pos)
          (Nat.le_add_right pos i) (Nat.add_lt_add_left hi pos)
        rw [← h (pos + i) (by omega), byteAt, hdiv, hmod, Nat.add_sub_cancel_left]
      obtain ⟨blk, hblk, -⟩ := map_eq_some_iff.1 (hbyte 0 hchunk)
      simp only [hblk, map_some, some_inj] at hbyte
      rw [if_pos hpos, hblk]
      dsimp only
      rw [readLoop_eq h (by omega), Bytes.bytes_congr hbyte, ← Bytes.bytes_add]
      congr 1
      omega
    · rw [if_neg hpos, Nat.sub_eq_zero_of_le (Nat.le_of_not_lt hpos)]
      rfl

/-- A read sees the bytes of the file. -/
theorem readInodeAt_eq {m : ℕ} (h : ∀ off < (fs.readInode m).size, fs.byteAt m off = some (f off))
    (start max : ℕ) : fs.readInodeAt m start max =
      Bytes.bytes f start (min max ((fs.readInode m).size - start)) := by
  rw [readInodeAt]
  by_cases hend : (fs.readInode m).size ≤ start
  · rw [if_pos hend, Nat.sub_eq_zero_of_le hend, Nat.min_zero]
    rfl
  · rw [if_neg hend]
    dsimp only
    rw [readLoop_eq (fun off hoff ↦ h off (by omega)) le_rfl, Nat.add_sub_cancel_left]

theorem Keeps.readInodeAt_eq (h : Keeps fs fs') (n position max : ℕ) :
    fs'.readInodeAt n position max = fs.readInodeAt n position max := by
  have hbyte := byteAt_eq_content h.sound n
  rw [Fs.readInodeAt_eq hbyte, h.size, Fs.readInodeAt_eq fun off hoff ↦ ?_]
  rw [← h.bytes hoff, hbyte off (by rwa [h.size])]

theorem size_coverSize (hn : n < fs.count) (m : ℕ) : ((fs.coverSize n pos).readInode m).size =
    if m = n then max (fs.readInode n).size pos else (fs.readInode m).size := by
  rw [coverSize, readInode_writeInode hn]
  split <;> rfl

/-- After a walk from within the file or its end, and with the size that covers it. -/
theorem Wrote.content_coverSize (h : Wrote fs fs' n pos pos' f) (hs : fs.Sound)
    (hext : Extends fs fs') (hn : n < fs.count) (hpos : pos ≤ (fs.readInode n).size) (m off : ℕ) :
    (fs'.coverSize n pos').content m off =
      if m = n ∧ pos ≤ off ∧ off < pos' then f off else fs.content m off := by
  have hn' : n < fs'.count := hext.count ▸ hn
  rw [content, content, size_coverSize hn', hext.size, hext.size, coverSize, byteAt_setSize hn']
  by_cases hin : m = n ∧ pos ≤ off ∧ off < pos'
  · obtain ⟨rfl, hin⟩ := hin
    rw [if_pos rfl, if_pos (by omega), if_pos ⟨rfl, hin⟩, h.written hin.1 hin.2]
    rfl
  · rw [if_neg hin]
    by_cases hoff : off < (fs.readInode m).size
    · rw [h.kept (hs.whole m off hoff) hin, if_pos hoff, if_pos]
      split <;> [subst m; skip] <;> omega
    · rw [if_neg hoff, if_neg]
      split <;> [subst m; skip] <;> omega

/-- Filling a gap changes no contents. -/
theorem content_opened (hs : fs.Sound) (hn : n < fs.count)
    (h : fs.opened n position = (fs', true)) : fs'.content = fs.content ∧
      ∀ m ≠ n, (fs'.readInode m).size = (fs.readInode m).size := by
  rw [opened] at h
  by_cases hpast : (fs.readInode n).size < position
  · rw [if_pos hpast] at h
    obtain ⟨fs₁, hkeeps, hdone, rfl⟩ := resizeInodeData_cases hs hn h
    have hcover := (hdone rfl).content_coverSize hs hkeeps.toExtends hn le_rfl
    have hmax := Nat.max_eq_right (Nat.le_of_lt hpast)
    rw [hmax, coverSize, hkeeps.size, hmax] at hcover
    refine ⟨funext₂ fun m off ↦ (hcover m off).trans (ite_eq_right_iff.2 ?_), fun m hm ↦ ?_⟩
    · rintro ⟨rfl, hoff, -⟩
      exact (if_neg (Nat.not_lt.2 hoff)).symm
    · rw [if_pos rfl, readInode_writeInode (hkeeps.count ▸ hn), if_neg hm, hkeeps.size]
  · rw [if_neg hpast] at h
    cases h
    exact ⟨rfl, fun _ _ ↦ rfl⟩

/-! ## Whole runs -/

/-- A file system without files whose first `reserved` blocks are in use, for the inode table.  One
that `newfs_oxfs` has made has a root directory, too. -/
def blank (dataBlocks reserved count : ℕ) : Fs where
  dataBlocks := dataBlocks
  bitmapBlocks := divCeil dataBlocks bitsPerBitmapBlock
  used b := b < reserved
  freeCounts index := min dataBlocks ((index + 1) * bitsPerBitmapBlock)
    - max reserved (index * bitsPerBitmapBlock)
  nextFreeBlock := 0
  data _ _ := 0
  count := count
  inodes _ := .free

inductive Op
  | resize (n size : ℕ)
  | write (n position len : ℕ) (fill : Fill)

/-- One operation on an inode of the table. -/
def step (fs : Fs) : Op → Option Fs
  | .resize n size => if n < fs.count then some (fs.resizeInodeData n size).1 else none
  | .write n position len fill =>
    if n < fs.count then some (fs.writeInodeWith n position len fill).1 else none

variable {dataBlocks reserved count : ℕ}

theorem readInode_blank (n : ℕ) : (blank dataBlocks reserved count).readInode n = .free := by
  rw [readInode]
  split <;> rfl

theorem root_blank (x : ℕ × Root) : (blank dataBlocks reserved count).root x = none := by
  rw [root, readInode_blank]
  cases x.2 <;> rfl

theorem Sound.blank (h : dataBlocks ≤ noBlock) (reserved count : ℕ) :
    (Fs.blank dataBlocks reserved count).Sound := by
  have hnone : ∀ x p, (Fs.blank dataBlocks reserved count).place x p = none :=
    fun x p ↦ follow_of_root_none (root_blank x) p
  refine ⟨h, fun r p r' p' b _ _ hb ↦ ?_, fun x p b _ hb ↦ ?_, fun n off hoff ↦ ?_⟩
  · rw [← place, hnone] at hb
    cases hb
  · rw [hnone] at hb
    cases hb
  · rw [readInode_blank] at hoff
    exact absurd hoff (Nat.not_lt_zero off)

theorem Counted.blank (dataBlocks reserved count : ℕ) :
    (Fs.blank dataBlocks reserved count).Counted := by
  refine ⟨?_, fun index ↦ ?_, fun b _ ↦ Nat.zero_le b⟩
  · simp only [Fs.blank, divCeil, bitsPerBitmapBlock]
    omega
  · have hfree : ((Fs.blank dataBlocks reserved count).freeBlocks.filter
        fun b ↦ b / bitsPerBitmapBlock = index) =
        Finset.Ico (max reserved (index * bitsPerBitmapBlock))
          (min dataBlocks ((index + 1) * bitsPerBitmapBlock)) := by
      ext b
      rw [Finset.mem_filter, mem_freeBlocks, Finset.mem_Ico]
      simp only [Fs.blank, decide_eq_false_iff_not, bitsPerBitmapBlock]
      omega
    rw [hfree, Nat.card_Ico]
    rfl

theorem Sound.step {op : Op} (hs : fs.Sound) (h : fs.step op = some fs') : fs'.Sound := by
  cases op with
  | resize n size =>
    obtain ⟨hn, h⟩ := of_ite_right h (by simp)
    cases h
    cases hok : (fs.resizeInodeData n size).2 with
    | false => exact (resizeInodeData_fails hs hn (Prod.ext rfl hok)).sound
    | true => exact (resizeInodeData_succeeds hs hn (Prod.ext rfl hok)).1
  | write n position len fill =>
    obtain ⟨hn, h⟩ := of_ite_right h (by simp)
    cases h
    exact writeInodeWith_sound hs hn rfl

theorem Counted.step {op : Op} (hc : fs.Counted) (hs : fs.Sound) (h : fs.step op = some fs') :
    fs'.Counted := by
  cases op with
  | resize n size =>
    obtain ⟨hn, h⟩ := of_ite_right h (by simp)
    cases h
    exact (resizeInodeData_spends hs hn rfl).2.1 hc
  | write n position len fill =>
    obtain ⟨hn, h⟩ := of_ite_right h (by simp)
    cases h
    exact writeInodeWith_counted hs hc hn rfl

/-- **A sound file system stays sound**, whatever is resized and written in it. -/
theorem sound_of_run {ops : List Op} (hs : fs.Sound)
    (hrun : Machine.run step fs ops = some fs') : fs'.Sound :=
  Machine.run_keeps (fun _ _ _ hs hstep ↦ hs.step hstep) hs hrun

/-- A fill with 7 and 8. -/
def two : Fill := fun written _ ↦ .ok fun i ↦ [7, 8].getD (written + i) 0

theorem sound_two : ∃ fs,
    Machine.run step (blank 4 1 1) [.write 0 1 2 two, .resize 0 9] = some fs ∧ fs.Sound :=
  Machine.exists_run_of (fun _ ↦ True) rfl fun _ hrun _ ↦
    sound_of_run (Sound.blank (by decide) 1 1) hrun

/-- And the free blocks stay counted. -/
theorem sound_and_counted_of_run {ops : List Op} (hs : fs.Sound) (hc : fs.Counted)
    (hrun : Machine.run step fs ops = some fs') : fs'.Sound ∧ fs'.Counted :=
  Machine.run_keeps (I := fun fs ↦ fs.Sound ∧ fs.Counted)
    (fun _ _ _ h hstep ↦ ⟨h.1.step hstep, h.2.step h.1 hstep⟩) ⟨hs, hc⟩ hrun

/-- **A write is read back**: as far as it counts, the file holds the bytes of `src`; every other
byte of every file is what it was, a gap's being zero. -/
theorem read_after_write {src : ℕ → UInt8} (hs : fs.Sound) (hn : n < fs.count)
    (hfill : fill.From src) (h : fs.writeInodeWith n position len fill = (fs', .ok k))
    (m start want : ℕ) : fs'.readInodeAt m start want =
      Bytes.bytes (fun off ↦ if m = n ∧ position ≤ off ∧ off < position + k
        then src (off - position) else fs.content m off) start
      (min want ((if m = n then max (fs.readInode n).size (position + k)
        else (fs.readInode m).size) - start)) := by
  rcases writeInodeWith_cases h with
    ⟨-, hresult⟩ | ⟨fs₁, fs₂, pos, stopped, hopen, hloop, rfl, hresult⟩
  · cases hresult
  obtain ⟨hs₁, hcount, hsize⟩ := opened_succeeds hs hn hopen
  obtain ⟨hcontent, hothers⟩ := content_opened hs hn hopen
  obtain ⟨hwalk, hn₂, -⟩ := opened_walk hs hn hopen hloop
  have hk : pos - position = k := by
    cases stopped with
    | none => exact (Except.ok.inj hresult).symm
    | some e => exact Except.ok.inj (of_ite_left hresult.symm (by simp)).2
  obtain rfl : pos = position + k := by
    have hle := hwalk.le
    omega
  rw [readInodeAt_eq (byteAt_eq_content (writeInodeWith_sound hs hn h) m),
    funext ((hwalk.wrote hfill).content_coverSize hs₁ hwalk.ext (hcount ▸ hn) (by omega) m),
    hcontent, size_coverSize hn₂, hwalk.ext.size, hwalk.ext.size, hsize, Nat.max_assoc,
    Nat.max_eq_right (Nat.le_add_right position k)]
  congr 3
  by_cases hm : m = n
  · rw [if_pos hm, if_pos hm]
  · rw [if_neg hm, if_neg hm, hothers m hm]

theorem read_after_two :
    ((blank 4 1 1).writeInodeWith 0 1 2 two).1.readInodeAt 0 0 9 = [0, 7, 8] := by
  have hfill : two.From fun i ↦ [7, 8].getD i 0 := by
    rintro _ _ _ ⟨⟩ _ _
    rfl
  exact read_after_write (Sound.blank (by decide) 1 1) (by decide) hfill
    (show (blank 4 1 1).writeInodeWith 0 1 2 two = (_, .ok 2) from rfl) 0 0 9

/-! ## A write that fails -/

/-- **A write that returns an error has left its file as it was exactly if it did not begin past the
end of the file, or the gap before it could not be filled**: its inode has no place for a block of
the gap, or fewer blocks are free than are missing of the gap. -/
theorem failed_write_unchanged_iff {position len : ℕ} {fill : Fill} {e : ℤ} (hs : fs.Sound)
    (hc : fs.Counted) (hn : n < fs.count)
    (h : fs.writeInodeWith n position len fill = (fs', .error e)) :
    ((fs'.readInode n).size = (fs.readInode n).size ∧
        ∀ start max, fs'.readInodeAt n start max = fs.readInodeAt n start max) ↔
      position ≤ (fs.readInode n).size ∨ maxFileBlocks < divCeil position blockSize ∨
        fs.freeBlocks.card < (fs.missing n (gap (fs.readInode n).size position)).card := by
  have hkept : Keeps fs fs' → (fs'.readInode n).size = (fs.readInode n).size ∧
      ∀ start max, fs'.readInodeAt n start max = fs.readInodeAt n start max :=
    fun hkeeps ↦ ⟨hkeeps.size n, hkeeps.readInodeAt_eq n⟩
  have hcases := writeInodeWith_fails hs hn h
  rw [opened] at hcases
  rw [← resizeInodeData_fails_iff hs hc hn]
  by_cases hpast : (fs.readInode n).size < position
  · rw [if_pos hpast] at hcases
    rcases hcases with hfails | ⟨fs₁, hgrown, hkeeps⟩
    · -- the gap was not filled
      exact iff_of_true (hkept (resizeInodeData_fails hs hn hfails)) (.inr (by rw [hfails]))
    · -- the file has been resized before the error
      obtain ⟨-, -, hsize⟩ := resizeInodeData_succeeds hs hn hgrown
      refine iff_of_false (fun hsame ↦ ?_) ?_
      · have hnew := hkeeps.size n
        omega
      · rw [hgrown]
        simp [hpast]
  · rw [if_neg hpast] at hcases
    rcases hcases with hfails | ⟨fs₁, hsame, hkeeps⟩
    · cases hfails
    · cases hsame
      exact iff_of_true (hkept hkeeps) (.inl (Nat.le_of_not_lt hpast))

/-- A fill that faults at once. -/
def faulting : Fill := fun _ _ ↦ .error (-14)

/-- A write inside a file with contents whose bytes cannot be read, and one past the end of a file
that no block is left for. -/
theorem failed_write_inside :
    (∃ fs, Machine.run step (blank 4 1 1) [.write 0 1 2 two] = some fs ∧
      (fs.writeInodeWith 0 1 1 faulting).2 = .error (-14) ∧
      (fs.writeInodeWith 0 1 1 faulting).1.readInodeAt 0 0 9 = [0, 7, 8]) ∧
    ((blank 1 1 1).writeInodeWith 0 1 1 faulting).2 = .error (-ENOSPC) ∧
      (((blank 1 1 1).writeInodeWith 0 1 1 faulting).1.readInode 0).size = 0 := by
  refine ⟨Machine.exists_run_of (fun fs ↦ 0 < fs.count ∧ (fs.readInode 0).size = 3 ∧
    (fs.writeInodeWith 0 1 1 faulting).2 = .error (-14) ∧ fs.readInodeAt 0 0 9 = [0, 7, 8])
    (by decide +kernel) ?_, rfl, ?_⟩
  · rintro fs hrun ⟨hcount, hsize, herror, hread⟩
    obtain ⟨hs, hc⟩ := sound_and_counted_of_run (Sound.blank (by decide) 1 1) (.blank 4 1 1) hrun
    refine ⟨herror, ?_⟩
    rw [← hread]
    exact ((failed_write_unchanged_iff hs hc hcount (Prod.ext rfl herror)).2
      (.inl (by rw [hsize]; decide))).2 0 9
  · exact ((failed_write_unchanged_iff (Sound.blank (by decide) 1 1) (.blank 1 1 1) (by decide)
      (show (blank 1 1 1).writeInodeWith 0 1 1 faulting = (_, .error (-ENOSPC)) from rfl)).2
      (.inr (.inr (by decide)))).1

/-- A write of one byte at offset 1 of an empty file whose byte cannot be read: the error is
returned, and the file has one byte. -/
theorem failed_write_resized :
    ((blank 4 1 1).readInode 0).size = 0 ∧
      ((blank 4 1 1).writeInodeWith 0 1 1 faulting).2 = .error (-14) ∧
      (((blank 4 1 1).writeInodeWith 0 1 1 faulting).1.readInode 0).size = 1 :=
  ⟨rfl, rfl, rfl⟩

end Fs
end OxideBSD.OxfsFiles
