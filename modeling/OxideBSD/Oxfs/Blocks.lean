import OxideBSD.Lib.PointerForest
import OxideBSD.Oxfs.Storage

/-!
# The blocks of an oxfs's files

The inodes' pointers are a forest: an inode has twelve direct pointers, one to an index block and
one to an index block of index blocks.  In a sound file system no block is at two places of the
forest, every block in it is in use, and every file has the blocks its size asks for (`Sound`).

* `Added`: a free block has been put into an empty place, by a root (`added_root`) or a slot
  (`added_slot`); no file has changed (`Added.keeps`).
* `inodeEnsureBlockAt_spec`: asking for a block of a file changes no file, and a block that is
  returned is the file's afterwards.

The allocator is a cursor over the bitmap that skips a bitmap block on its count of free blocks.
While the counts are right and no free block is before the cursor (`Counted`), it finds a block
whenever one is free (`allocBlock_le`).  So whether a file can get its blocks is a matter of numbers:
`missing` are the empty places on the ways to the blocks asked for, each of them takes one free block
(`Adds.spends`), and a request fails only once none is free (`Stuck`).
-/

set_option autoImplicit false

namespace OxideBSD.OxfsFiles

open Function List Option

open Oxfs.Mount (blockSize directBlocks ptrsPerIndirect ptrsPerDoubleIndirect noBlock
  bitsPerBitmapBlock Block)
open PointerForest

/-! ## The forest -/

/-- The pointers of an inode. -/
inductive Root
  | direct (i : Fin directBlocks)
  | indirect
  | double
  deriving DecidableEq

/-- The levels of index blocks below a pointer. -/
def Root.depth : Root → ℕ
  | .direct _ => 0
  | .indirect => 1
  | .double => 2

namespace Inode

def ptr (inode : Inode) : Root → ℕ
  | .direct i => inode.direct i
  | .indirect => inode.indirect
  | .double => inode.doubleIndirect

def setPtr (inode : Inode) (b : ℕ) : Root → Inode
  | .direct i => { inode with direct := update inode.direct i b }
  | .indirect => { inode with indirect := b }
  | .double => { inode with doubleIndirect := b }

@[simp] theorem size_setPtr (inode : Inode) (b : ℕ) (r : Root) :
    (inode.setPtr b r).size = inode.size := by
  cases r <;> rfl

theorem ptr_setPtr (inode : Inode) (b : ℕ) (r r' : Root) :
    (inode.setPtr b r).ptr r' = if r' = r then b else inode.ptr r' := by
  cases r <;> cases r' <;> simp [setPtr, ptr, update_apply]

theorem setPtr_ptr (inode : Inode) (r : Root) : inode.setPtr (inode.ptr r) r = inode := by
  cases r <;> simp [setPtr, ptr]

end Inode

namespace Fs

variable {fs fs' fs'' : Fs} {n b index : ℕ} {x : Block}

/-- The pointers of the inodes in the table. -/
def root (fs : Fs) (x : ℕ × Root) : Option ℕ := someBlock ((fs.readInode x.1).ptr x.2)

/-- The pointers in a block. -/
def slotAt (data : ℕ → Block) (b i : ℕ) : Option ℕ :=
  if i < ptrsPerIndirect then someBlock (indexPtr (data b) i) else none

def depth (x : ℕ × Root) : ℕ := x.2.depth

/-- The block at a place of the forest. -/
def place (fs : Fs) (x : ℕ × Root) (p : List ℕ) : Option ℕ := follow fs.root (slotAt fs.data) x p

/-- Where a file's block `index` is. -/
def leaf (index : ℕ) : Option (Root × List ℕ) :=
  if h : index < directBlocks then some (.direct ⟨index, h⟩, [])
  else if index - directBlocks < ptrsPerIndirect then some (.indirect, [index - directBlocks])
  else if index - directBlocks - ptrsPerIndirect < ptrsPerDoubleIndirect then
    some (.double, [(index - directBlocks - ptrsPerIndirect) % ptrsPerIndirect,
      (index - directBlocks - ptrsPerIndirect) / ptrsPerIndirect])
  else none

/-- A file's byte at `off`, if its block is there. -/
def byteAt (fs : Fs) (n off : ℕ) : Option UInt8 :=
  (fs.inodeBlockAt (fs.readInode n) (off / blockSize)).map fun b ↦ fs.data b (off % blockSize)

/-- A sound file system.  The inode records are kept apart from the pool (`Fs.inodes`), so the blocks
of the inode file are at no place of this forest, and `Sound` does not say where they are. -/
structure Sound (fs : Fs) : Prop where
  bound : fs.dataBlocks ≤ noBlock
  sole : Sole depth fs.root (slotAt fs.data)
  used : ∀ ⦃x p b⦄, p.length ≤ depth x → fs.place x p = some b → fs.used b = true
  whole : ∀ n off, off < (fs.readInode n).size → (fs.byteAt n off).isSome

@[simp] theorem someBlock_noBlock : someBlock noBlock = none := rfl

theorem someBlock_of_ne (h : b ≠ noBlock) : someBlock b = some b := if_neg h

theorem length_of_leaf {l : Root × List ℕ} (h : leaf index = some l) :
    l.2.length = l.1.depth := by
  unfold leaf at h
  split_ifs at h <;> cases h <;> rfl

theorem leaf_inj {a c : ℕ} {l : Root × List ℕ} (ha : leaf a = some l) (hc : leaf c = some l) :
    a = c := by
  have hdiv := Nat.div_add_mod (a - directBlocks - ptrsPerIndirect) ptrsPerIndirect
  have hdiv' := Nat.div_add_mod (c - directBlocks - ptrsPerIndirect) ptrsPerIndirect
  unfold leaf at ha hc
  split_ifs at ha hc <;> cases ha <;> simp at hc
  · exact hc.symm
  · omega
  · rw [hc.2] at hdiv'
    omega

/-- The slots that lead to a block of the double-indirect tier. -/
theorem slots_lt (h : index < ptrsPerDoubleIndirect) :
    index / ptrsPerIndirect < ptrsPerIndirect ∧ index % ptrsPerIndirect < ptrsPerIndirect :=
  ⟨Nat.div_lt_of_lt_mul h, Nat.mod_lt _ (by decide)⟩

/-- The source's walk to a block follows the forest's pointers. -/
theorem inodeBlockAt_eq (fs : Fs) (n index : ℕ) : fs.inodeBlockAt (fs.readInode n) index =
    (leaf index).bind fun l ↦ fs.place (n, l.1) l.2 := by
  rw [inodeBlockAt, leaf]
  by_cases hdirect : index < directBlocks
  · rw [dif_pos hdirect, dif_pos hdirect]
    rfl
  rw [dif_neg hdirect, dif_neg hdirect]
  by_cases hsingle : index - directBlocks < ptrsPerIndirect
  · rw [if_pos hsingle, if_pos hsingle]
    by_cases hnone : (fs.readInode n).indirect = noBlock
    · simp [hnone, place, follow, root, Inode.ptr]
    · simp [hnone, place, follow, root, Inode.ptr, someBlock_of_ne hnone, slotAt, hsingle,
        readIndexPtr]
  rw [if_neg hsingle, if_neg hsingle]
  by_cases hdouble : index - directBlocks - ptrsPerIndirect < ptrsPerDoubleIndirect
  · obtain ⟨hdiv, hmod⟩ := slots_lt hdouble
    rw [if_pos hdouble, bind_some, place, follow, follow, follow, root, Inode.ptr]
    by_cases hnone : (fs.readInode n).doubleIndirect = noBlock
    · simp [hnone]
    · rw [if_neg (by omega), someBlock_of_ne hnone, bind_some, slotAt, if_pos hdiv]
      by_cases hinner : fs.readIndexPtr (fs.readInode n).doubleIndirect
          ((index - directBlocks - ptrsPerIndirect) / ptrsPerIndirect) = noBlock
      · rw [← readIndexPtr, hinner]
        rfl
      · rw [if_neg hinner, ← readIndexPtr, someBlock_of_ne hinner, bind_some, slotAt,
          if_pos hmod]
        rfl
  · rw [if_pos (.inr (Nat.le_of_not_lt hdouble)), if_neg hdouble]
    rfl

@[simp] theorem data_writeBlock (fs : Fs) (n : ℕ) (x : Block) :
    (fs.writeBlock n x).data = update fs.data n x := rfl

@[simp] theorem data_writeInode (fs : Fs) (n : ℕ) (inode : Inode) :
    (fs.writeInode n inode).data = fs.data := by
  unfold writeInode
  split <;> rfl

@[simp] theorem used_writeInode (fs : Fs) (n : ℕ) (inode : Inode) :
    (fs.writeInode n inode).used = fs.used := by
  unfold writeInode
  split <;> rfl

@[simp] theorem count_writeInode (fs : Fs) (n : ℕ) (inode : Inode) :
    (fs.writeInode n inode).count = fs.count := by
  unfold writeInode
  split <;> rfl

@[simp] theorem dataBlocks_writeInode (fs : Fs) (n : ℕ) (inode : Inode) :
    (fs.writeInode n inode).dataBlocks = fs.dataBlocks := by
  unfold writeInode
  split <;> rfl

theorem readInode_writeInode (hn : n < fs.count) (inode : Inode) (m : ℕ) :
    (fs.writeInode n inode).readInode m = if m = n then inode else fs.readInode m := by
  rw [writeInode, if_pos hn]
  by_cases hm : m = n
  · simp [readInode, hm, hn]
  · simp [readInode, hm]

theorem writeInode_readInode (fs : Fs) (n : ℕ) : fs.writeInode n (fs.readInode n) = fs := by
  by_cases hn : n < fs.count
  · simp [writeInode, readInode, hn]
  · simp [writeInode, hn]

/-! ## The free blocks -/

/-- The blocks of the pool that are not in use. -/
def freeBlocks (fs : Fs) : Finset ℕ :=
  (Finset.range fs.dataBlocks).filter fun b ↦ fs.used b = false

/-- What `allocBlock` relies on: every block has its bit, each bitmap block has its free blocks
counted, and none is before the cursor. -/
structure Counted (fs : Fs) : Prop where
  maps : fs.dataBlocks ≤ fs.bitmapBlocks * bitsPerBitmapBlock
  counts : ∀ index, fs.freeCounts index =
    (fs.freeBlocks.filter fun b ↦ b / bitsPerBitmapBlock = index).card
  cursor : ∀ b ∈ fs.freeBlocks, fs.nextFreeBlock ≤ b

theorem mem_freeBlocks : b ∈ fs.freeBlocks ↔ b < fs.dataBlocks ∧ fs.used b = false := by
  rw [freeBlocks, Finset.mem_filter, Finset.mem_range]

theorem freeBlocks_congr (hused : fs'.used = fs.used) (hblocks : fs'.dataBlocks = fs.dataBlocks) :
    fs'.freeBlocks = fs.freeBlocks := by
  rw [freeBlocks, freeBlocks, hused, hblocks]

theorem freeBlocks_of_used (hused : fs'.used = update fs.used b true)
    (hblocks : fs'.dataBlocks = fs.dataBlocks) : fs'.freeBlocks = fs.freeBlocks.erase b := by
  ext c
  rw [Finset.mem_erase, mem_freeBlocks, mem_freeBlocks, hused, hblocks]
  by_cases hc : c = b
  · simp [hc]
  · simp [hc]

theorem counted_writeInode {inode : Inode} : (fs.writeInode n inode).Counted ↔ fs.Counted := by
  unfold writeInode
  split
  · exact ⟨fun h ↦ ⟨h.maps, h.counts, h.cursor⟩, fun h ↦ ⟨h.maps, h.counts, h.cursor⟩⟩
  · exact .rfl

theorem Counted.writeBlock (h : fs.Counted) (b : ℕ) (x : Block) : (fs.writeBlock b x).Counted :=
  ⟨h.maps, h.counts, h.cursor⟩

/-- **The scan goes by no free block** of the bitmap blocks that it looks at. -/
theorem allocScan_le (hc : fs.Counted) {start c fuel index : ℕ} (hfree : c ∈ fs.freeBlocks)
    (hstart : start ≤ c) (hfrom : index * bitsPerBitmapBlock ≤ c)
    (hto : c < (index + fuel) * bitsPerBitmapBlock) :
    ∃ b ≤ c, fs.allocScan start fuel index = some b := by
  obtain ⟨hlt, hunused⟩ := mem_freeBlocks.1 hfree
  induction fuel generalizing index with
  | zero => exact absurd hto (Nat.not_lt.2 hfrom)
  | succ fuel ih =>
    have hnext : (index + 1) * bitsPerBitmapBlock = index * bitsPerBitmapBlock + bitsPerBitmapBlock :=
      Nat.succ_mul _ _
    rw [allocScan]
    by_cases hhere : c < (index + 1) * bitsPerBitmapBlock
    · have hpos : 0 < fs.freeCounts index := by
        rw [hc.counts]
        exact Finset.card_pos.2
          ⟨c, Finset.mem_filter.2 ⟨hfree, Nat.div_eq_of_lt_le hfrom hhere⟩⟩
      have hbit : index * bitsPerBitmapBlock + (c - index * bitsPerBitmapBlock) = c := by omega
      rw [if_pos hpos]
      dsimp only
      split
      next bit hfind =>
        refine ⟨_, ?_, rfl⟩
        by_contra hgt
        have hbefore := (find?_range'_eq_some.1 hfind).2.2 (c - index * bitsPerBitmapBlock)
          (by omega) (by omega)
        rw [hbit, hunused] at hbefore
        cases hbefore
      next hfind =>
        have hnone := find?_range'_eq_none.1 hfind (c - index * bitsPerBitmapBlock) (by omega)
          (by omega)
        rw [hbit, hunused] at hnone
        cases hnone
    · have hrest := ih (Nat.le_of_not_lt hhere) (by rwa [Nat.add_right_comm])
      split_ifs
      · dsimp only
        split
        next bit hfind =>
          have hmem := mem_range'_1.1 (mem_of_find?_eq_some hfind)
          exact ⟨_, by omega, rfl⟩
        · exact hrest
      · exact hrest

/-- **A block is found as long as one is free**, and it is the first. -/
theorem allocBlock_le (hc : fs.Counted) (hfree : b ∈ fs.freeBlocks) :
    ∃ c ≤ b, ∃ fs', fs.allocBlock = some (c, fs') := by
  have hstart := hc.cursor b hfree
  have hlt := (mem_freeBlocks.1 hfree).1
  have hmaps := hc.maps
  have hfrom : fs.nextFreeBlock / bitsPerBitmapBlock * bitsPerBitmapBlock ≤ b :=
    (Nat.div_mul_le_self _ _).trans hstart
  have hindex : fs.nextFreeBlock / bitsPerBitmapBlock ≤ fs.bitmapBlocks := by
    by_contra hgt
    have hle := Nat.mul_le_mul_right bitsPerBitmapBlock (Nat.le_of_not_le hgt)
    omega
  obtain ⟨c, hcb, hscan⟩ := allocScan_le hc hfree hstart hfrom
    (by rw [Nat.add_sub_cancel' hindex]; omega)
  rw [allocBlock, hscan]
  exact ⟨c, hcb, _, rfl⟩

theorem freeBlocks_of_allocBlock (hc : fs.Counted) (h : fs.allocBlock = none) :
    fs.freeBlocks = ∅ := by
  refine Finset.eq_empty_of_forall_notMem fun b hb ↦ ?_
  obtain ⟨c, -, fs', hsome⟩ := allocBlock_le hc hb
  rw [h] at hsome
  cases hsome

/-! ## Claiming a block -/

/-- The free block `b` has been taken and filled with `x`. -/
structure Claimed (fs fs' : Fs) (b : ℕ) (x : Block) : Prop where
  fresh : fs.used b = false
  lt : b < fs.dataBlocks
  used : fs'.used = update fs.used b true
  data : fs'.data = update fs.data b x
  inodes : fs'.inodes = fs.inodes
  count : fs'.count = fs.count
  dataBlocks : fs'.dataBlocks = fs.dataBlocks
  counted : fs.Counted → fs'.Counted

theorem Claimed.readInode (h : Claimed fs fs' b x) (m : ℕ) : fs'.readInode m = fs.readInode m := by
  rw [Fs.readInode, Fs.readInode, h.inodes, h.count]

/-- What the scan finds is a free block of the pool. -/
theorem allocScan_spec {start : ℕ} : ∀ {fuel index : ℕ}, fs.allocScan start fuel index = some b →
    fs.used b = false ∧ b < fs.dataBlocks
  | 0, _, h => by cases h
  | fuel + 1, index, h => by
    rw [allocScan] at h
    by_cases hfree : 0 < fs.freeCounts index
    · rw [if_pos hfree] at h
      rcases hfind : (range' (max start (index * bitsPerBitmapBlock)
          - index * bitsPerBitmapBlock) (min (fs.dataBlocks - index * bitsPerBitmapBlock)
          bitsPerBitmapBlock - (max start (index * bitsPerBitmapBlock)
          - index * bitsPerBitmapBlock))).find?
          fun bit ↦ !fs.used (index * bitsPerBitmapBlock + bit) with _ | bit
      · simp only [hfind] at h
        exact allocScan_spec h
      · simp only [hfind, some_inj] at h
        have hmem := mem_of_find?_eq_some hfind
        have hclear := find?_some hfind
        rw [mem_range'_1] at hmem
        subst h
        exact ⟨by simpa using hclear, by omega⟩
    · rw [if_neg hfree] at h
      exact allocScan_spec h

/-- The first free block is taken, and the cursor goes past it. -/
theorem Counted.claim (hc : fs.Counted) (h : fs.allocBlock = some (b, fs'))
    (hb : b ∈ fs.freeBlocks) (hused : fs'.used = update fs.used b true)
    (hblocks : fs'.dataBlocks = fs.dataBlocks) (hmaps : fs'.bitmapBlocks = fs.bitmapBlocks)
    (hcounts : fs'.freeCounts = update fs.freeCounts (b / bitsPerBitmapBlock)
      (fs.freeCounts (b / bitsPerBitmapBlock) - 1))
    (hcursor : fs'.nextFreeBlock = b + 1) : fs'.Counted := by
  have hfree := freeBlocks_of_used hused hblocks
  refine ⟨?_, fun index ↦ ?_, fun c hmem ↦ ?_⟩
  · rw [hblocks, hmaps]
    exact hc.maps
  · rw [hcounts, hfree, Finset.filter_erase, update_apply]
    by_cases hindex : index = b / bitsPerBitmapBlock
    · have hin : b ∈ fs.freeBlocks.filter fun b ↦ b / bitsPerBitmapBlock = index :=
        Finset.mem_filter.2 ⟨hb, hindex.symm⟩
      rw [if_pos hindex, Finset.card_erase_of_mem hin, ← hindex, hc.counts]
    · have hout : b ∉ fs.freeBlocks.filter fun b ↦ b / bitsPerBitmapBlock = index :=
        fun hin ↦ hindex (Finset.mem_filter.1 hin).2.symm
      rw [if_neg hindex, Finset.erase_eq_of_notMem hout, hc.counts]
  · rw [hfree, Finset.mem_erase] at hmem
    obtain ⟨b', hle, fs'', hsome⟩ := allocBlock_le hc hmem.2
    rw [h] at hsome
    cases hsome
    rw [hcursor]
    omega

theorem allocBlock_spec (h : fs.allocBlock = some (b, fs')) : Claimed fs fs' b fun _ ↦ 0 := by
  have halloc := h
  rw [allocBlock] at h
  rcases hscan : fs.allocScan fs.nextFreeBlock (fs.bitmapBlocks - fs.nextFreeBlock
      / bitsPerBitmapBlock) (fs.nextFreeBlock / bitsPerBitmapBlock) with _ | n
  · rw [hscan] at h
    cases h
  · rw [hscan] at h
    cases h
    obtain ⟨hfresh, hlt⟩ := allocScan_spec hscan
    have hne : ¬fs.used b = true := by simp [hfresh]
    simp only [setBlockUsed, if_neg hne] at halloc ⊢
    exact ⟨hfresh, hlt, rfl, rfl, rfl, rfl, rfl, fun hc ↦
      hc.claim halloc (mem_freeBlocks.2 ⟨hlt, hfresh⟩) rfl rfl rfl rfl rfl⟩

theorem allocIndirectBlock_spec (h : fs.allocIndirectBlock = some (b, fs')) :
    Claimed fs fs' b fun _ ↦ 0xFF := by
  rw [allocIndirectBlock] at h
  rcases halloc : fs.allocBlock with _ | ⟨n, fs₁⟩
  · rw [halloc] at h
    cases h
  · rw [halloc] at h
    cases h
    obtain ⟨hfresh, hlt, hused, hdata, hinodes, hcount, hblocks, hcounted⟩ := allocBlock_spec halloc
    refine ⟨hfresh, hlt, hused, ?_, hinodes, hcount, hblocks, fun hc ↦ (hcounted hc).writeBlock _ _⟩
    simp [hdata]

/-! ## Index blocks -/

theorem slotAt_empty {data : ℕ → Block} (h : data b = fun _ ↦ 0xFF) (i : ℕ) :
    slotAt data b i = none := by
  have hptr : indexPtr (data b) i = noBlock := by
    have hbytes : indexPtr (data b) i = Bytes.ofLe [0xFF, 0xFF, 0xFF, 0xFF] := by rw [h]; rfl
    rw [hbytes]
    decide
  simp [slotAt, hptr]

theorem indexPtr_setIndexPtr {i j : ℕ} (hb : b ≤ noBlock) :
    indexPtr (setIndexPtr x i b) j = if j = i then b else indexPtr x j := by
  have hputs : setIndexPtr x i b = Bytes.puts x [(i * 4, Bytes.toLe 4 b)] := rfl
  by_cases hj : j = i
  · have hlt : b < 256 ^ 4 := Nat.lt_of_le_of_lt hb (by decide)
    subst hj
    rw [if_pos rfl, hputs]
    exact Bytes.le_puts (pairwise_singleton _ _) mem_cons_self hlt
  · rw [if_neg hj, hputs]
    refine Bytes.le_congr fun k hk ↦ Bytes.puts_of_outside fun f hf ↦ ?_
    rw [mem_singleton] at hf
    subst hf
    simp only [Bytes.length_toLe]
    omega

/-! ## What keeps a file system sound -/

/-- From `fs` to `fs'` no file has been resized or has lost a block. -/
structure Extends (fs fs' : Fs) : Prop where
  sound : fs'.Sound
  count : fs'.count = fs.count
  size : ∀ m, (fs'.readInode m).size = (fs.readInode m).size
  there : ∀ ⦃m off⦄, (fs.byteAt m off).isSome → (fs'.byteAt m off).isSome
  counted : fs.Counted → fs'.Counted

/-- From `fs` to `fs'` no file has changed. -/
structure Keeps (fs fs' : Fs) : Prop extends Extends fs fs' where
  bytes : ∀ ⦃m off⦄, off < (fs.readInode m).size → fs'.byteAt m off = fs.byteAt m off

theorem Extends.refl (h : fs.Sound) : Extends fs fs := ⟨h, rfl, fun _ ↦ rfl, fun _ _ h ↦ h, id⟩

theorem Extends.trans (h : Extends fs fs') (h' : Extends fs' fs'') : Extends fs fs'' :=
  ⟨h'.sound, h'.count.trans h.count, fun m ↦ (h'.size m).trans (h.size m),
    fun _ _ hsome ↦ h'.there (h.there hsome), fun hc ↦ h'.counted (h.counted hc)⟩

/-- From `fs` to `fs'` no byte that was there has changed. -/
structure Holds (fs fs' : Fs) : Prop extends Keeps fs fs' where
  held : ∀ ⦃m off⦄, (fs.byteAt m off).isSome → fs'.byteAt m off = fs.byteAt m off

theorem Holds.refl (h : fs.Sound) : Holds fs fs :=
  ⟨⟨.refl h, fun _ _ _ ↦ rfl⟩, fun _ _ _ ↦ rfl⟩

theorem Holds.trans (h : Holds fs fs') (h' : Holds fs' fs'') : Holds fs fs'' := by
  refine ⟨⟨h.toExtends.trans h'.toExtends, fun m off hoff ↦ ?_⟩, fun m off hsome ↦ ?_⟩
  · rw [h'.bytes (by rwa [h.size]), h.bytes hoff]
  · rw [h'.held (h.there hsome), h.held hsome]

theorem byteAt_eq (fs : Fs) (m off : ℕ) : fs.byteAt m off =
    (leaf (off / blockSize)).bind fun l ↦
      (fs.place (m, l.1) l.2).map fun b ↦ fs.data b (off % blockSize) := by
  rw [byteAt, inodeBlockAt_eq]
  cases leaf (off / blockSize) <;> rfl

/-! ## Adding a block -/

/-- From `fs` to `fs'` the free block `b` has been put into the empty place `q` below `t`. -/
structure Added (fs fs' : Fs) (t : ℕ × Root) (q : List ℕ) (b : ℕ) : Prop where
  link : Link depth fs.root fs'.root (slotAt fs.data) (slotAt fs'.data) t q b
  fresh : fs.used b = false
  lt : b < fs.dataBlocks
  used : fs'.used = update fs.used b true
  leaves : ∀ ⦃x p c⦄, p.length = depth x → fs.place x p = some c → fs'.data c = fs.data c
  size : ∀ m, (fs'.readInode m).size = (fs.readInode m).size
  count : fs'.count = fs.count
  dataBlocks : fs'.dataBlocks = fs.dataBlocks
  counted : fs.Counted → fs'.Counted

namespace Added

variable {t : ℕ × Root} {q : List ℕ}

/-- The bytes that were there are there. -/
theorem byteAt_eq_some (h : Added fs fs' t q b) {m off : ℕ} {v : UInt8}
    (hv : fs.byteAt m off = some v) : fs'.byteAt m off = some v := by
  rw [byteAt_eq] at hv ⊢
  cases hl : leaf (off / blockSize) with
  | none => simp [hl] at hv
  | some l =>
    have hlen : l.2.length = depth (m, l.1) := length_of_leaf hl
    simp only [hl, bind_some, map_eq_some_iff] at hv ⊢
    obtain ⟨c, hc, rfl⟩ := hv
    refine ⟨c, h.link.follow_of_some (Nat.le_of_eq hlen) hc, ?_⟩
    rw [h.leaves hlen hc]

/-- **A block put into an empty place changes no file.** -/
theorem keeps (h : Added fs fs' t q b) (hs : fs.Sound) : Holds fs fs' := by
  have hsome : ∀ ⦃m off⦄, (fs.byteAt m off).isSome → fs'.byteAt m off = fs.byteAt m off := by
    intro m off hsome
    obtain ⟨v, hv⟩ := isSome_iff_exists.1 hsome
    rw [hv, h.byteAt_eq_some hv]
  have hnew : ∀ ⦃r p⦄, p.length ≤ depth r → follow fs.root (slotAt fs.data) r p ≠ some b := by
    intro r p hp hb
    have hused := hs.used hp hb
    rw [h.fresh] at hused
    cases hused
  refine ⟨⟨⟨⟨?_, ?_, ?_, ?_⟩, h.count, h.size, ?_, h.counted⟩, ?_⟩, hsome⟩
  · rw [h.dataBlocks]
    exact hs.bound
  · exact Sole.link h.link hs.sole hnew
  · intro x p c hp hc
    rw [h.used, update_apply]
    rcases h.link.eq_or_follow hp hc with ⟨-, -, rfl⟩ | hc
    · simp
    · simp [hs.used hp hc]
  · intro m off hoff
    rw [h.size] at hoff
    rw [hsome (hs.whole m off hoff)]
    exact hs.whole m off hoff
  · intro m off hbyte
    rw [hsome hbyte]
    exact hbyte
  · exact fun m off hoff ↦ hsome (hs.whole m off hoff)

theorem place_self (h : Added fs fs' t q b) (hq : q.length ≤ depth t) : fs'.place t q = some b := by
  rw [place, follow_link h.link hq, if_pos ⟨rfl, rfl⟩]

end Added

/-- What is at a place is in use, and so not the new block. -/
theorem Claimed.ne_of_place {y : ℕ × Root} {p : List ℕ} {c : ℕ} (hc : Claimed fs fs' b x)
    (hused : fs''.used = fs.used) (hs : fs''.Sound) (hp : p.length ≤ depth y)
    (hplace : fs''.place y p = some c) : c ≠ b := by
  rintro rfl
  have hin := hs.used hp hplace
  rw [hused, hc.fresh] at hin
  cases hin

section Add

variable {inode : Inode} {r : Root} {x : Block}

/-- A new block behind an inode's pointer. -/
theorem added_root (hn : n < fs.count) (hs : (fs.writeInode n inode).Sound)
    (hptr : inode.ptr r = noBlock) (hc : Claimed fs fs' b x)
    (hx : r.depth = 0 ∨ x = fun _ ↦ 0xFF) :
    Added (fs.writeInode n inode) (fs'.writeInode n (inode.setPtr b r)) (n, r) [] b := by
  have hn' : n < fs'.count := by rwa [hc.count]
  have hb : b ≠ noBlock := by
    have hbound := hs.bound
    rw [dataBlocks_writeInode] at hbound
    exact Nat.ne_of_lt (Nat.lt_of_lt_of_le hc.lt hbound)
  have hkept : ∀ ⦃y p c⦄, p.length ≤ depth y → (fs.writeInode n inode).place y p = some c →
      fs'.data c = fs.data c := by
    intro y p c hp hplace
    rw [hc.data, update_of_ne (hc.ne_of_place (used_writeInode _ _ _) hs hp hplace)]
  refine ⟨⟨?_, nofun, ?_, ?_, ?_⟩, by simp [hc.fresh], by simp [hc.lt], by simp [hc.used], ?_, ?_,
    by simp [hc.count], by simp [hc.dataBlocks], ?_⟩
  · simp [follow, root, readInode_writeInode hn, hptr]
  · intro y
    rw [root, root, readInode_writeInode hn, readInode_writeInode hn', hc.readInode]
    by_cases hy : y.1 = n
    · by_cases hr : y.2 = r
      · have hyt : y = (n, r) := Prod.ext hy hr
        simp [hyt, Inode.ptr_setPtr, someBlock_of_ne hb]
      · have hyt : y ≠ (n, r) := fun h ↦ hr (congrArg Prod.snd h)
        simp [hy, hyt, Inode.ptr_setPtr, hr]
    · have hyt : y ≠ (n, r) := fun h ↦ hy (congrArg Prod.fst h)
      simp [hy, hyt]
  · intro y p c hp hplace i
    simp [slotAt, hkept (Nat.le_of_lt hp) hplace]
  · intro hdepth i
    rcases hx with hx | rfl
    · exact absurd hdepth (by simp [depth, hx])
    · refine slotAt_empty ?_ i
      simp [hc.data]
  · intro y p c hp hplace
    simp [hkept (Nat.le_of_eq hp) hplace]
  · intro m
    rw [readInode_writeInode hn, readInode_writeInode hn', hc.readInode]
    split <;> simp
  · rw [counted_writeInode, counted_writeInode]
    exact hc.counted

/-- A new block behind a slot of an index block. -/
theorem added_slot {up : List ℕ} {ib i : ℕ} (hn : n < fs.count)
    (hs : (fs.writeInode n inode).Sound) (hup : up.length < r.depth)
    (hib : (fs.writeInode n inode).place (n, r) up = some ib) (hi : i < ptrsPerIndirect)
    (hptr : indexPtr (fs.data ib) i = noBlock) (hc : Claimed fs fs' b x)
    (hx : up.length + 1 = r.depth ∨ x = fun _ ↦ 0xFF) :
    Added (fs.writeInode n inode)
      ((fs'.writeBlock ib (setIndexPtr (fs.data ib) i b)).writeInode n inode) (n, r) (i :: up)
      b := by
  have hn' : n < (fs'.writeBlock ib (setIndexPtr (fs.data ib) i b)).count := by
    rwa [writeBlock, hc.count]
  have hlt : b < noBlock := by
    have hbound := hs.bound
    rw [dataBlocks_writeInode] at hbound
    exact Nat.lt_of_lt_of_le hc.lt hbound
  have hfresh : ∀ ⦃y p c⦄, p.length ≤ depth y → (fs.writeInode n inode).place y p = some c →
      c ≠ b := fun y p c ↦ hc.ne_of_place (used_writeInode _ _ _) hs
  have hread : ∀ m, (fs'.writeBlock ib (setIndexPtr (fs.data ib) i b)).readInode m =
      fs.readInode m := hc.readInode
  -- the only block at a place that changes is the index block
  have hkept : ∀ ⦃y p c⦄, p.length ≤ depth y → (fs.writeInode n inode).place y p = some c →
      c ≠ ib → (fs'.writeBlock ib (setIndexPtr (fs.data ib) i b)).data c = fs.data c := by
    intro y p c hp hplace hne
    rw [data_writeBlock, update_of_ne hne, hc.data,
      update_of_ne (hfresh hp hplace)]
  refine ⟨⟨?_, ?_, ?_, ?_, ?_⟩, by simp [hc.fresh], by simp [hc.lt], by simp [writeBlock, hc.used],
    ?_, ?_, by simp [writeBlock, hc.count], by simp [writeBlock, hc.dataBlocks], ?_⟩
  · rw [follow, ← place, hib]
    simp [slotAt, hptr]
  · rintro j up' heq
    cases heq
    rw [← place, hib]
    simp
  · intro y
    rw [root, root, readInode_writeInode hn, readInode_writeInode hn', hread]
    simp
  · intro y p c hp hplace j
    by_cases hcib : c = ib
    · obtain ⟨rfl, rfl⟩ := hs.sole (Nat.le_of_lt hp) (Nat.le_of_lt hup) hplace (hcib ▸ hib)
      subst hcib
      simp only [slotAt, data_writeInode, writeBlock, update_self,
        indexPtr_setIndexPtr (Nat.le_of_lt hlt)]
      by_cases hji : j = i
      · simp [hji, hi, someBlock_of_ne (Nat.ne_of_lt hlt)]
      · have hij : i ≠ j := fun h ↦ hji h.symm
        simp [hji, hij]
    · have hne : ¬(y = (n, r) ∧ i :: up = j :: p) := by
        rintro ⟨rfl, heq⟩
        cases heq
        rw [← place, hib] at hplace
        exact hcib (some_inj.1 hplace).symm
      rw [if_neg hne, slotAt, slotAt, data_writeInode, data_writeInode,
        hkept (Nat.le_of_lt hp) hplace hcib]
  · intro hdepth j
    rcases hx with hx | rfl
    · have hd : depth (n, r) = r.depth := rfl
      rw [length_cons] at hdepth
      omega
    · have hne : b ≠ ib := fun h ↦ hfresh (Nat.le_of_lt hup) hib h.symm
      refine slotAt_empty ?_ j
      simp [hc.data, update_of_ne hne]
  · intro y p c hp hplace
    rw [data_writeInode, data_writeInode]
    refine hkept (Nat.le_of_eq hp) hplace fun hcib ↦ ?_
    obtain ⟨rfl, rfl⟩ := hs.sole (Nat.le_of_eq hp) (Nat.le_of_lt hup) hplace (hcib ▸ hib)
    exact absurd hp (Nat.ne_of_lt hup)
  · intro m
    rw [readInode_writeInode hn, readInode_writeInode hn', hread]
  · rw [counted_writeInode, counted_writeInode]
    exact fun h ↦ (hc.counted h).writeBlock _ _

end Add

/-! ## What is missing -/

/-- The places that lead to the blocks `s` of a file. -/
def places (s : Finset ℕ) : Finset (Root × List ℕ) :=
  s.biUnion fun index ↦ ((leaf index).elim [] fun l ↦ l.2.tails.map (Prod.mk l.1)).toFinset

/-- The places that are empty on the ways to the blocks `s` of file `n`: each takes a block. -/
def missing (fs : Fs) (n : ℕ) (s : Finset ℕ) : Finset (Root × List ℕ) :=
  (places s).filter fun x ↦ fs.place (n, x.1) x.2 = none

section Missing

variable {s : Finset ℕ} {y : Root × List ℕ}

theorem mem_places : y ∈ places s ↔
    ∃ index ∈ s, ∃ l, leaf index = some l ∧ l.1 = y.1 ∧ y.2 <:+ l.2 := by
  simp only [places, Finset.mem_biUnion, List.mem_toFinset]
  refine exists_congr fun index ↦ and_congr_right fun _ ↦ ?_
  cases leaf index with
  | none => simp
  | some l => simp [Prod.ext_iff, and_comm]

theorem length_of_mem_places (h : y ∈ places s) : y.2.length ≤ depth (n, y.1) := by
  obtain ⟨index, -, l, hl, hroot, hsuffix⟩ := mem_places.1 h
  rw [depth, ← hroot, ← length_of_leaf hl]
  exact hsuffix.length_le

theorem mem_missing : y ∈ fs.missing n s ↔ y ∈ places s ∧ fs.place (n, y.1) y.2 = none :=
  Finset.mem_filter

/-- A block put on the way to blocks of the file: one less is free, and one less is missing. -/
theorem Added.spends (h : Added fs fs' (n, y.1) y.2 b) (hy : y ∈ places s) :
    fs'.freeBlocks.card + 1 = fs.freeBlocks.card ∧
      (fs'.missing n s).card + 1 = (fs.missing n s).card := by
  have hmissing : fs'.missing n s = (fs.missing n s).erase y := by
    ext z
    rw [Finset.mem_erase, mem_missing, mem_missing]
    by_cases hz : z ∈ places s
    · rw [place, follow_link h.link (length_of_mem_places hz)]
      by_cases heq : z = y
      · simp [heq]
      · have hne : ¬((n, z.1) = (n, y.1) ∧ y.2 = z.2) := by
          rintro ⟨hroot, hpath⟩
          exact heq (Prod.ext (congrArg Prod.snd hroot) hpath.symm)
        rw [if_neg hne]
        simp [hz, heq, place]
    · simp [hz]
  rw [freeBlocks_of_used h.used h.dataBlocks, hmissing]
  exact ⟨Finset.card_erase_add_one (mem_freeBlocks.2 ⟨h.lt, h.fresh⟩),
    Finset.card_erase_add_one (mem_missing.2 ⟨hy, h.link.empty⟩)⟩

/-- From `fs` to `fs'` as many blocks were taken as are missing less. -/
def Spends (n : ℕ) (s : Finset ℕ) (fs fs' : Fs) : Prop :=
  fs.freeBlocks.card + (fs'.missing n s).card = fs'.freeBlocks.card + (fs.missing n s).card

theorem Spends.trans (h : Spends n s fs fs') (h' : Spends n s fs' fs'') : Spends n s fs fs'' := by
  rw [Spends] at *
  omega

/-- From `fs` to `fs'` blocks were put, one after the other, on the ways to the blocks `s` of file
`n`. -/
def Adds (n : ℕ) (s : Finset ℕ) : Fs → Fs → Prop :=
  Relation.ReflTransGen fun fs fs' ↦ ∃ y ∈ places s, ∃ b, Added fs fs' (n, y.1) y.2 b

theorem Added.adds (h : Added fs fs' (n, y.1) y.2 b) (hy : y ∈ places s) : Adds n s fs fs' :=
  .single ⟨y, hy, b, h⟩

theorem Adds.holds (h : Adds n s fs fs') (hs : fs.Sound) : Holds fs fs' := by
  induction h with
  | refl => exact .refl hs
  | tail _ hadd ih =>
    obtain ⟨y, -, b, hadd⟩ := hadd
    exact ih.trans (hadd.keeps ih.sound)

theorem Adds.spends (h : Adds n s fs fs') : Spends n s fs fs' := by
  induction h with
  | refl => rfl
  | tail _ hadd ih =>
    obtain ⟨y, hy, b, hadd⟩ := hadd
    obtain ⟨hfree, hmissing⟩ := hadd.spends hy
    rw [Spends] at *
    omega

/-- A block is missing, and none is free. -/
def Stuck (fs : Fs) (n : ℕ) (s : Finset ℕ) : Prop :=
  (fs.missing n s).Nonempty ∧ (fs.Counted → fs.freeBlocks = ∅)

theorem stuck_of_allocBlock {inode : Inode} (h : fs.allocBlock = none) (hy : y ∈ places s)
    (hempty : (fs.writeInode n inode).place (n, y.1) y.2 = none) :
    (fs.writeInode n inode).Stuck n s := by
  refine ⟨⟨y, mem_missing.2 ⟨hy, hempty⟩⟩, fun hc ↦ ?_⟩
  rw [freeBlocks_congr (used_writeInode _ _ _) (dataBlocks_writeInode _ _ _)]
  exact freeBlocks_of_allocBlock (counted_writeInode.1 hc) h

theorem allocIndirectBlock_eq_none : fs.allocIndirectBlock = none ↔ fs.allocBlock = none := by
  rw [allocIndirectBlock]
  cases fs.allocBlock <;> simp

end Missing

/-! ## Asking for a block -/

section Ensure

variable {inode : Inode} {r : Root} {up : List ℕ} {ib i : ℕ} {result : Option ℕ} {s : Finset ℕ}

/-- After the index block behind an inode's pointer has been asked for. -/
theorem ensureIndirect_spec (hn : n < fs.count) (hs : (fs.writeInode n inode).Sound)
    (hr : (r, []) ∈ places s) (h : fs.ensureIndirect (inode.ptr r) = some (ib, fs')) :
    fs'.count = fs.count ∧
      Adds n s (fs.writeInode n inode) (fs'.writeInode n (inode.setPtr ib r)) ∧
      (fs'.writeInode n (inode.setPtr ib r)).place (n, r) [] = some ib := by
  rw [ensureIndirect] at h
  by_cases hptr : inode.ptr r = noBlock
  · rw [if_pos hptr] at h
    have hc := allocIndirectBlock_spec h
    have hadd := added_root hn hs hptr hc (.inr rfl)
    exact ⟨hc.count, hadd.adds hr, hadd.place_self (Nat.zero_le _)⟩
  · rw [if_neg hptr] at h
    cases h
    rw [Inode.setPtr_ptr]
    refine ⟨rfl, .refl, ?_⟩
    rw [place, follow, root, readInode_writeInode hn, if_pos rfl]
    exact someBlock_of_ne hptr

theorem place_root (hn : n < fs.count) (hptr : inode.ptr r = noBlock) :
    (fs.writeInode n inode).place (n, r) [] = none := by
  rw [place, follow, root, readInode_writeInode hn, if_pos rfl, hptr, someBlock_noBlock]

theorem stuck_of_ensureIndirect (hn : n < fs.count) (hr : (r, []) ∈ places s)
    (h : fs.ensureIndirect (inode.ptr r) = none) : (fs.writeInode n inode).Stuck n s := by
  rw [ensureIndirect] at h
  by_cases hptr : inode.ptr r = noBlock
  · rw [if_pos hptr, allocIndirectBlock_eq_none] at h
    exact stuck_of_allocBlock h hr (place_root hn hptr)
  · rw [if_neg hptr] at h
    cases h

/-- A slot that is not empty leads to its block. -/
theorem place_slot (hib : fs.place (n, r) up = some ib) (hi : i < ptrsPerIndirect)
    (hptr : indexPtr (fs.data ib) i ≠ noBlock) :
    fs.place (n, r) (i :: up) = some (indexPtr (fs.data ib) i) := by
  rw [place, follow, ← place, hib, bind_some, slotAt, if_pos hi, someBlock_of_ne hptr]

theorem place_slot_none (hib : (fs.writeInode n inode).place (n, r) up = some ib)
    (hptr : indexPtr (fs.data ib) i = noBlock) :
    (fs.writeInode n inode).place (n, r) (i :: up) = none := by
  rw [place, follow, ← place, hib, bind_some, slotAt, data_writeInode, hptr, someBlock_noBlock,
    ite_self]

/-- After the index block behind a slot of the double-indirect block has been asked for. -/
theorem ensureInner_spec {inner : ℕ} (hn : n < fs.count) (hs : (fs.writeInode n inode).Sound)
    (hup : up.length + 1 ≤ r.depth) (hib : (fs.writeInode n inode).place (n, r) up = some ib)
    (hi : i < ptrsPerIndirect) (hr : (r, i :: up) ∈ places s)
    (h : fs.ensureInner ib i = some (inner, fs')) :
    fs'.count = fs.count ∧ Adds n s (fs.writeInode n inode) (fs'.writeInode n inode) ∧
      (fs'.writeInode n inode).place (n, r) (i :: up) = some inner := by
  rw [ensureInner] at h
  by_cases hptr : indexPtr (fs.data ib) i = noBlock
  · rw [if_neg (not_not.2 hptr)] at h
    rcases halloc : fs.allocIndirectBlock with _ | ⟨nb, fs₁⟩
    · rw [halloc] at h
      cases h
    · rw [halloc] at h
      cases h
      have hc := allocIndirectBlock_spec halloc
      have hadd := added_slot hn hs hup hib hi hptr hc (.inr rfl)
      exact ⟨hc.count, hadd.adds hr, hadd.place_self hup⟩
  · rw [if_pos hptr] at h
    cases h
    refine ⟨rfl, .refl, ?_⟩
    have hslot := place_slot hib hi (by rwa [data_writeInode])
    rwa [data_writeInode] at hslot

theorem stuck_of_ensureInner (hib : (fs.writeInode n inode).place (n, r) up = some ib)
    (hr : (r, i :: up) ∈ places s) (h : fs.ensureInner ib i = none) :
    (fs.writeInode n inode).Stuck n s := by
  rw [ensureInner] at h
  by_cases hptr : indexPtr (fs.data ib) i = noBlock
  · rw [if_neg (not_not.2 hptr)] at h
    cases halloc : fs.allocIndirectBlock with
    | none =>
      exact stuck_of_allocBlock (allocIndirectBlock_eq_none.1 halloc) hr (place_slot_none hib hptr)
    | some c =>
      rw [halloc] at h
      cases h
  · rw [if_pos hptr] at h
    cases h

/-- After the data block behind a slot of an index block has been asked for. -/
theorem ensureIndexSlot_spec (hn : n < fs.count) (hs : (fs.writeInode n inode).Sound)
    (hup : up.length + 1 = r.depth) (hib : (fs.writeInode n inode).place (n, r) up = some ib)
    (hi : i < ptrsPerIndirect) (hr : (r, i :: up) ∈ places s)
    (h : fs.ensureIndexSlot ib i = (fs', result)) :
    Adds n s (fs.writeInode n inode) (fs'.writeInode n inode) ∧
      (∀ blk, result = some blk → (fs'.writeInode n inode).place (n, r) (i :: up) = some blk) ∧
      (result = none → (fs'.writeInode n inode).Stuck n s) := by
  rw [ensureIndexSlot] at h
  by_cases hptr : indexPtr (fs.data ib) i = noBlock
  · rw [if_neg (not_not.2 hptr)] at h
    rcases halloc : fs.allocBlock with _ | ⟨nb, fs₁⟩
    · rw [halloc] at h
      cases h
      exact ⟨.refl, nofun, fun _ ↦ stuck_of_allocBlock halloc hr (place_slot_none hib hptr)⟩
    · rw [halloc] at h
      cases h
      have hadd := added_slot hn hs (Nat.lt_of_succ_le (Nat.le_of_eq hup)) hib hi hptr
        (allocBlock_spec halloc) (.inl hup)
      refine ⟨hadd.adds hr, ?_, nofun⟩
      intro blk hblk
      rw [← hblk]
      exact hadd.place_self (Nat.le_of_eq hup)
  · rw [if_pos hptr] at h
    cases h
    refine ⟨.refl, ?_, nofun⟩
    intro blk hblk
    have hslot := place_slot hib hi (by rwa [data_writeInode])
    rwa [data_writeInode, hblk] at hslot

/-- After a direct block has been asked for. -/
theorem ensureDirect_spec {inode' : Inode} (hn : n < fs.count) (hs : (fs.writeInode n inode).Sound)
    (hdirect : index < directBlocks) (hr : (.direct ⟨index, hdirect⟩, []) ∈ places s)
    (h : fs.ensureBlock inode index = (fs', inode', result)) :
    Adds n s (fs.writeInode n inode) (fs'.writeInode n inode') ∧
      (∀ blk, result = some blk →
        (fs'.writeInode n inode').place (n, .direct ⟨index, hdirect⟩) [] = some blk) ∧
      (result = none → (fs'.writeInode n inode').Stuck n s) := by
  rw [ensureBlock, dif_pos hdirect] at h
  by_cases hptr : inode.direct ⟨index, hdirect⟩ = noBlock
  · rw [if_pos hptr] at h
    rcases halloc : fs.allocBlock with _ | ⟨nb, fs₁⟩
    · rw [halloc] at h
      cases h
      exact ⟨.refl, nofun, fun _ ↦ stuck_of_allocBlock halloc hr (place_root hn hptr)⟩
    · rw [halloc] at h
      cases h
      have hadd := added_root (r := .direct ⟨index, hdirect⟩) hn hs hptr
        (allocBlock_spec halloc) (.inl rfl)
      refine ⟨hadd.adds hr, ?_, nofun⟩
      intro blk hblk
      rw [← hblk]
      exact hadd.place_self (Nat.zero_le _)
  · rw [if_neg hptr] at h
    cases h
    refine ⟨.refl, ?_, nofun⟩
    intro blk hblk
    rw [← hblk, place, follow, root, readInode_writeInode hn, if_pos rfl]
    exact someBlock_of_ne hptr

/-- After any block of a file has been asked for. -/
theorem ensureBlock_spec {inode' : Inode} (hn : n < fs.count) (hs : (fs.writeInode n inode).Sound)
    (hindex : index ∈ s) (h : fs.ensureBlock inode index = (fs', inode', result)) :
    Adds n s (fs.writeInode n inode) (fs'.writeInode n inode') ∧
      (∀ blk, result = some blk →
        ∃ l, leaf index = some l ∧ (fs'.writeInode n inode').place (n, l.1) l.2 = some blk) ∧
      (result = none → leaf index = none ∨ (fs'.writeInode n inode').Stuck n s) := by
  have hway : ∀ {l p}, leaf index = some l → p <:+ l.2 → (l.1, p) ∈ places s :=
    fun hl hp ↦ mem_places.2 ⟨index, hindex, _, hl, rfl, hp⟩
  by_cases hdirect : index < directBlocks
  · have hleaf : leaf index = some (.direct ⟨index, hdirect⟩, []) := dif_pos hdirect
    obtain ⟨hadds, hresult, hstuck⟩ := ensureDirect_spec hn hs hdirect (hway hleaf suffix_rfl) h
    exact ⟨hadds, fun blk hblk ↦ ⟨_, hleaf, hresult blk hblk⟩, fun hnone ↦ .inr (hstuck hnone)⟩
  rw [ensureBlock, dif_neg hdirect] at h
  by_cases hsingle : index - directBlocks < ptrsPerIndirect
  · have hleaf : leaf index = some (.indirect, [index - directBlocks]) := by
      rw [leaf, dif_neg hdirect, if_pos hsingle]
    have hroot := hway hleaf nil_suffix
    rw [if_pos hsingle] at h
    rcases hind : fs.ensureIndirect inode.indirect with _ | ⟨ib, fs₁⟩
    · rw [hind] at h
      cases h
      exact ⟨.refl, nofun, fun _ ↦ .inr (stuck_of_ensureIndirect hn hroot hind)⟩
    · rw [hind] at h
      obtain ⟨hcount, hadds, hplace⟩ := ensureIndirect_spec (r := .indirect) hn hs hroot hind
      rcases hslot : fs₁.ensureIndexSlot ib (index - directBlocks) with ⟨fs₂, result₂⟩
      simp only [hslot] at h
      cases h
      obtain ⟨hadds', hresult, hstuck⟩ := ensureIndexSlot_spec (hcount ▸ hn) (hadds.holds hs).sound
        rfl hplace hsingle (hway hleaf suffix_rfl) hslot
      exact ⟨hadds.trans hadds', fun blk hblk ↦ ⟨_, hleaf, hresult blk hblk⟩,
        fun hnone ↦ .inr (hstuck hnone)⟩
  rw [if_neg hsingle] at h
  by_cases hdouble : index - directBlocks - ptrsPerIndirect < ptrsPerDoubleIndirect
  · obtain ⟨hdiv, hmod⟩ := slots_lt hdouble
    have hleaf : leaf index = some (.double,
        [(index - directBlocks - ptrsPerIndirect) % ptrsPerIndirect,
          (index - directBlocks - ptrsPerIndirect) / ptrsPerIndirect]) := by
      rw [leaf, dif_neg hdirect, if_neg hsingle, if_pos hdouble]
    have hroot := hway hleaf nil_suffix
    have houter := hway hleaf (suffix_cons _ _)
    rw [if_neg (Nat.not_le_of_lt hdouble)] at h
    rcases hind : fs.ensureIndirect inode.doubleIndirect with _ | ⟨outer, fs₁⟩
    · rw [hind] at h
      cases h
      exact ⟨.refl, nofun, fun _ ↦ .inr (stuck_of_ensureIndirect hn hroot hind)⟩
    rw [hind] at h
    dsimp only at h
    obtain ⟨hcount, hadds, hplace⟩ := ensureIndirect_spec (r := .double) hn hs hroot hind
    have hn₁ : n < fs₁.count := hcount ▸ hn
    have hs₁ := (hadds.holds hs).sound
    rcases hinner : fs₁.ensureInner outer
        ((index - directBlocks - ptrsPerIndirect) / ptrsPerIndirect) with _ | ⟨inner, fs₂⟩
    · rw [hinner] at h
      cases h
      exact ⟨hadds, nofun, fun _ ↦ .inr (stuck_of_ensureInner hplace houter hinner)⟩
    rw [hinner] at h
    obtain ⟨hcount', hadds', hplace'⟩ := ensureInner_spec hn₁ hs₁ (by decide) hplace hdiv houter
      hinner
    rcases hslot : fs₂.ensureIndexSlot inner
        ((index - directBlocks - ptrsPerIndirect) % ptrsPerIndirect) with ⟨fs₃, result₃⟩
    simp only [hslot] at h
    cases h
    obtain ⟨hadds'', hresult, hstuck⟩ := ensureIndexSlot_spec (hcount' ▸ hn₁)
      (hadds'.holds hs₁).sound rfl hplace' hmod (hway hleaf suffix_rfl) hslot
    exact ⟨(hadds.trans hadds').trans hadds'', fun blk hblk ↦ ⟨_, hleaf, hresult blk hblk⟩,
      fun hnone ↦ .inr (hstuck hnone)⟩
  · rw [if_pos (Nat.le_of_not_lt hdouble)] at h
    cases h
    refine ⟨.refl, nofun, fun _ ↦ .inl ?_⟩
    rw [leaf, dif_neg hdirect, if_neg hsingle, if_neg hdouble]

end Ensure

/-- **Asking for a block adds what is missing on the way to it**, and what is returned is the file's
block.  Nothing is returned only if the block is past all places, or the pool has run out. -/
theorem inodeEnsureBlockAt_adds {result : Option ℕ} {s : Finset ℕ} (hs : fs.Sound)
    (hn : n < fs.count) (hindex : index ∈ s) (h : fs.inodeEnsureBlockAt n index = (fs', result)) :
    Adds n s fs fs' ∧
      (∀ blk, result = some blk → fs'.inodeBlockAt (fs'.readInode n) index = some blk) ∧
      (result = none → leaf index = none ∨ fs'.Stuck n s) := by
  rcases hensure : fs.ensureBlock (fs.readInode n) index with ⟨fs₁, inode₁, result₁⟩
  rw [inodeEnsureBlockAt, hensure] at h
  cases h
  have hself : (fs.writeInode n (fs.readInode n)).Sound := by rwa [writeInode_readInode]
  obtain ⟨hadds, hresult, hstuck⟩ := ensureBlock_spec hn hself hindex hensure
  rw [writeInode_readInode] at hadds
  refine ⟨hadds, fun blk hblk ↦ ?_, hstuck⟩
  obtain ⟨l, hl, hplace⟩ := hresult blk hblk
  rw [inodeBlockAt_eq, hl]
  exact hplace

/-- **Asking for a block changes no file.** -/
theorem inodeEnsureBlockAt_spec {result : Option ℕ} (hs : fs.Sound) (hn : n < fs.count)
    (h : fs.inodeEnsureBlockAt n index = (fs', result)) :
    Holds fs fs' ∧ ∀ blk, result = some blk →
      fs'.inodeBlockAt (fs'.readInode n) index = some blk := by
  obtain ⟨hadds, hresult, -⟩ := inodeEnsureBlockAt_adds hs hn (Finset.mem_singleton_self index) h
  exact ⟨hadds.holds hs, hresult⟩

end Fs
end OxideBSD.OxfsFiles
