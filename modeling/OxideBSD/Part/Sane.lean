import OxideBSD.Part.Space

/-!
# Tables from hostile disks

`parse` checks a GPT's header and both CRCs, but not where the entries lie.  `Disk.Sane` says what
it leaves unchecked: entries end on the disk and do not start past the usable range, the disk is not
within 2048 sectors of the largest number, and a GPT has its protective entry and its array of
entries in the sectors that are read.

* `parseGpt_eq`: what `parse_gpt` gives for the disk's sectors, by `GptAt`, the same checks for the
  whole disk.
* `parsed_safe`: a sane disk's table, through every run of calls.
* `parsed_past_disk`: an MBR entry past the disk's end is taken as it is.
-/

set_option autoImplicit false

namespace OxideBSD.Part

open Bytes Res

/-! ## Slots without arithmetic -/

/-- What `gptSlot` gives if its length is no overflow. -/
def slotEntry (b : ℕ → UInt8) (a i : ℕ) : Option Entry :=
  if guidAt b a = zeroGuid ∨ le64 b (a + 32) > le64 b (a + 40) then none
  else some {
    index := i + 1, code := .gpt (guidAt b a), first := le64 b (a + 32)
    sectors := le64 b (a + 40) - le64 b (a + 32) + 1, label := labelAt b a
    guid := guidAt b (a + 16), attributes := le64 b (a + 48), active := false }

variable {b : ℕ → UInt8} {i : ℕ}

theorem gptSlot_eq {a : ℕ} (h : ∀ e, slotEntry b a i = some e → e.sectors < 2 ^ 64) :
    gptSlot b a i = .ok (slotEntry b a i) := by
  by_cases hnone : guidAt b a = zeroGuid ∨ le64 b (a + 32) > le64 b (a + 40)
  · rw [slotEntry, if_pos hnone, gptSlot]
    split_ifs with hzero hgt
    · rfl
    · rfl
    · exact absurd hnone (not_or.2 ⟨hzero, hgt⟩)
  · obtain ⟨hzero, hgt⟩ := not_or.1 hnone
    rw [slotEntry, if_neg hnone] at h ⊢
    rw [gptSlot, if_neg hzero, if_neg hgt, addU64, if_pos (h _ rfl)]
    rfl

theorem gptSlots_eq {start size : ℕ} {is : List ℕ}
    (h : ∀ i ∈ is, ∀ e, slotEntry b (start + i * size) i = some e → e.sectors < 2 ^ 64) :
    gptSlots b start size is = .ok (is.filterMap fun i ↦ slotEntry b (start + i * size) i) := by
  induction is with
  | nil => rfl
  | cons i is ih =>
    rw [gptSlots, gptSlot_eq (h i List.mem_cons_self),
      ih fun j hj ↦ h j (List.mem_cons_of_mem i hj), List.filterMap_cons]
    cases slotEntry b (start + i * size) i <;> rfl

theorem sorted_filterMap {f : ℕ → Option Entry} (hf : ∀ i e, f i = some e → e.index = i + 1)
    (n : ℕ) :
    ((List.range n).filterMap f).Pairwise fun a b ↦ a.index < b.index := by
  refine List.pairwise_filterMap.2 (List.pairwise_lt_range.imp fun {i j} hij a ha b hb ↦ ?_)
  rw [hf i a ha, hf j b hb]
  omega

theorem slotEntry_index {a : ℕ} {e : Entry} (h : slotEntry b a i = some e) : e.index = i + 1 := by
  rw [slotEntry] at h
  split_ifs at h
  cases h
  rfl

theorem mbrSlot_index {e : Entry} (h : mbrSlot b i = some e) : e.index = i + 1 := by
  rw [mbrSlot] at h
  split_ifs at h
  cases h
  rfl

/-! ## What the disk carries -/

namespace Disk

variable (d : Disk)

/-- The header in sector `lba`. -/
def header (lba : ℕ) : Header := headerAt d.byte (lba * d.ss)

/-- Where its entries start. -/
def entriesAt (lba : ℕ) : ℕ := (d.header lba).entriesLba * d.ss

/-- A valid GPT with its header in sector `lba`, and its entries anywhere on the disk. -/
def GptAt (lba : ℕ) : Prop :=
  HeaderOk d.byte (lba * d.ss) lba ∧ (d.header lba).InBounds d.total ∧
    2 + (d.header lba).entrySectors d.ss ≤ (d.header lba).firstUsable ∧
    (d.header lba).lastUsable + 1 + (d.header lba).entrySectors d.ss ≤ d.total - 1 ∧
    d.entriesAt lba + (d.header lba).count * (d.header lba).size ≤ d.total * d.ss ∧
    crc32 (bytes d.byte (d.entriesAt lba) ((d.header lba).count * (d.header lba).size)) =
      (d.header lba).entriesCrc

instance (lba : ℕ) : Decidable (d.GptAt lba) := inferInstanceAs (Decidable (_ ∧ _))

/-- The disk carries a valid GPT, primary or backup. -/
def CarriesGpt : Prop := d.GptAt 1 ∨ d.GptAt (d.total - 1)

/-- The GPT of sector `lba` is valid, and it and its entries are among the `n` sectors from `low`
on. -/
def Readable (lba low n : ℕ) : Prop :=
  d.GptAt lba ∧ low ≤ lba ∧ lba < low + n ∧ low ≤ (d.header lba).entriesLba ∧
    ((d.header lba).entriesLba - low) * d.ss + (d.header lba).count * (d.header lba).size ≤ n * d.ss

instance (lba low n : ℕ) : Decidable (d.Readable lba low n) :=
  inferInstanceAs (Decidable (_ ∧ _))

/-- The entry in slot `i` of the GPT of sector `lba`. -/
def slot (lba i : ℕ) : Option Entry :=
  slotEntry d.byte (d.entriesAt lba + i * (d.header lba).size) i

/-- Its entries end on the disk and do not start past the usable range. -/
def SlotsOk (lba : ℕ) : Prop :=
  ∀ i < (d.header lba).count, ∀ e ∈ d.slot lba i,
    e.first + e.sectors ≤ d.total ∧ e.first ≤ (d.header lba).lastUsable + 1

/-- The MBR's entries end on the disk. -/
def MbrOk : Prop := ∀ i < 4, ∀ e ∈ mbrSlot d.byte i, e.first + e.sectors ≤ d.total

/-- What `parse` of the first `headN` and the last `tailN` sectors does not check: of a disk with a
table, the largest number of sectors, that a valid GPT is announced and among these sectors, and
where the entries of the table there is lie. -/
def Sane (headN tailN : ℕ) : Prop :=
  Signed (d.sectorsFrom 0 headN) d.ss →
    d.total + 2048 ≤ 2 ^ 64 ∧
    (d.CarriesGpt → HasProtective d.byte ∧
      (d.Readable 1 0 headN ∨ d.Readable (d.total - 1) (d.total - tailN) tailN)) ∧
    if HasProtective d.byte ∧ d.Readable 1 0 headN then d.SlotsOk 1
    else if HasProtective d.byte ∧ d.Readable (d.total - 1) (d.total - tailN) tailN then
      d.SlotsOk (d.total - 1)
    else d.MbrOk

/-! ## Reading a GPT -/

variable {d} {lba low n headN tailN : ℕ} {boot : Vector UInt8 446} {b b' : ℕ → UInt8} {a a' : ℕ}

theorem guidAt_congr (h : ∀ i < 16, b (a + i) = b' (a' + i)) : guidAt b a = guidAt b' a' := by
  rw [guidAt]
  exact congrArg _ (funext fun i ↦ h i i.isLt)

/-- A header is read from its sector's first 512 bytes. -/
theorem headerAt_congr (h : ∀ i < 512, b (a + i) = b' (a' + i)) :
    headerAt b a = headerAt b' a' := by
  have hat (k n : ℕ) (hk : k + n ≤ 512) := congr_within h hk
  rw [headerAt, headerAt, guidAt_congr (hat 56 16 (by omega)), le64, le64, le64, le32, le32, le32,
    le_congr (hat 40 8 (by omega)), le_congr (hat 48 8 (by omega)), le_congr (hat 72 8 (by omega)),
    le_congr (hat 80 4 (by omega)), le_congr (hat 84 4 (by omega)), le_congr (hat 88 4 (by omega))]
  rfl

theorem headerOk_of_congr (h : ∀ i < 512, b (a + i) = b' (a' + i)) (hok : HeaderOk b a lba) :
    HeaderOk b' a' lba := by
  have hat (k n : ℕ) (hk : k + n ≤ 512) := congr_within h hk
  obtain ⟨hsig, hsize, hcrc, hlba⟩ := hok
  have hcopy : withoutCrc b a (le32 b (a + 12)) = withoutCrc b' a' (le32 b (a + 12)) := by
    refine List.map_congr_left fun i hi ↦ ?_
    rw [h i (by have := List.mem_range.1 hi; omega)]
  have h12 : le32 b (a + 12) = le32 b' (a' + 12) := le_congr (hat 12 4 (by omega))
  have h16 : le32 b (a + 16) = le32 b' (a' + 16) := le_congr (hat 16 4 (by omega))
  have h24 : le64 b (a + 24) = le64 b' (a' + 24) := le_congr (hat 24 8 (by omega))
  have h0 : bytes b a 8 = bytes b' a' 8 := bytes_congr fun i hi ↦ h i (by omega)
  rw [hcopy, h12, h16] at hcrc
  rw [h12] at hsize
  exact ⟨h0.symm.trans hsig, hsize, hcrc, h24.symm.trans hlba⟩

/-- A slot is read from its first 128 bytes. -/
theorem gptSlot_congr (h : ∀ i < 128, b (a + i) = b' (a' + i)) (i : ℕ) :
    gptSlot b a i = gptSlot b' a' i := by
  have hat (k n : ℕ) (hk : k + n ≤ 128) := congr_within h hk
  have hlabel : labelAt b a = labelAt b' a' := by
    rw [labelAt, labelAt]
    have hunits : ∀ j ∈ List.range gptLabelUnits,
        le b (a + 56 + 2 * j) 2 = le b' (a' + 56 + 2 * j) 2 := by
      intro j hj
      have hlt : j < 36 := List.mem_range.1 hj
      rw [Nat.add_assoc, Nat.add_assoc a']
      exact le_congr (hat (56 + 2 * j) 2 (by omega))
    rw [List.map_congr_left hunits]
  rw [gptSlot, gptSlot, hlabel, guidAt_congr fun i hi ↦ h i (by omega),
    guidAt_congr (hat 16 16 (by omega)), le64, le64, le64, le_congr (hat 32 8 (by omega)),
    le_congr (hat 40 8 (by omega)), le_congr (hat 48 8 (by omega))]
  rfl

theorem gptSlots_congr {size count : ℕ} (hsize : 128 ≤ size)
    (h : ∀ i < count * size, b (a + i) = b' (a' + i)) {is : List ℕ} (his : ∀ i ∈ is, i < count) :
    gptSlots b a size is = gptSlots b' a' size is := by
  induction is with
  | nil => rfl
  | cons i is ih =>
    have hslot : (i + 1) * size ≤ count * size := Nat.mul_le_mul_right _ (his i List.mem_cons_self)
    rw [Nat.succ_mul] at hslot
    rw [gptSlots, gptSlots, ih fun j hj ↦ his j (List.mem_cons_of_mem i hj),
      gptSlot_congr fun k hk ↦ ?_]
    rw [Nat.add_assoc, Nat.add_assoc]
    exact h _ (by omega)

/-- The table `parse_gpt` makes of the GPT of sector `lba` and its entries. -/
def gptTable (d : Disk) (lba : ℕ) (boot : Vector UInt8 446) (entries : List Entry) : Table where
  scheme := .gpt
  sectorSize := d.ss
  diskSectors := d.total
  diskGuid := (d.header lba).diskGuid
  firstUsable := (d.header lba).firstUsable
  lastUsable := (d.header lba).lastUsable
  entries := entries
  slots := (d.header lba).count
  boot := boot
  fromBackup := false

theorem offsetOf_eq (hle : low ≤ lba) (hlt : (lba - low) * d.ss < 2 ^ 64) :
    offsetOf low d.ss lba = some ((lba - low) * d.ss) := if_pos ⟨hle, hlt⟩

theorem Header.entrySectors_le {h : Header} {sectorSize diskSectors : ℕ} (hss : 512 ≤ sectorSize)
    (hbounds : h.InBounds diskSectors) : h.entrySectors sectorSize ≤ 256 := by
  have hcount : h.count * gptEntrySize ≤ 256 * sectorSize := by
    have := hbounds.2.2.2.2.2
    rw [gptEntrySize]
    omega
  exact Nat.le_of_lt_succ (Nat.div_lt_of_lt_mul (by rw [Nat.mul_comm sectorSize]; omega))

/-- The sectors that are read hold what the disk has there. -/
theorem add_offset (hle : low ≤ lba) : low * d.ss + (lba - low) * d.ss = lba * d.ss := by
  rw [← Nat.add_mul, Nat.add_sub_cancel' hle]

theorem byte_sectorsFrom (hle : low ≤ lba) (i : ℕ) :
    (d.sectorsFrom low n).byte ((lba - low) * d.ss + i) = d.byte (lba * d.ss + i) := by
  rw [← add_offset hle, Nat.add_assoc]
  rfl

/-- **A GPT is read exactly if it is valid and among the sectors read.** -/
theorem parseGpt_eq (hss : 512 ≤ d.ss) (htotal : d.total + 2048 ≤ 2 ^ 64) (hlow : low + n ≤ d.total)
    (hn : n * d.ss < 2 ^ 63) (hle : low ≤ lba) (hlt : lba < low + n) :
    parseGpt (d.sectorsFrom low n) lba low d.ss d.total boot =
      if d.Readable lba low n then
        (gptSlots d.byte (d.entriesAt lba) (d.header lba).size
          (List.range (d.header lba).count)).map
          fun es ↦ some (d.gptTable lba boot es)
      else .ok none := by
  have hin : (lba - low) * d.ss + d.ss ≤ n * d.ss := by
    rw [← Nat.succ_mul]
    exact Nat.mul_le_mul_right _ (by omega)
  have hok : HeaderOk (d.sectorsFrom low n).byte ((lba - low) * d.ss) lba ↔
      HeaderOk d.byte (lba * d.ss) lba :=
    ⟨headerOk_of_congr fun i _ ↦ byte_sectorsFrom hle i,
      headerOk_of_congr fun i _ ↦ (byte_sectorsFrom hle i).symm⟩
  rw [parseGpt, offsetOf_eq hle (by omega)]
  dsimp only
  rw [addU64, if_pos (by omega)]
  show (if _ then _ else _) = _
  rw [headerAt_congr fun i _ ↦ byte_sectorsFrom hle i, ← header]
  -- Each check fails for the buffer exactly if it fails for the disk.
  by_cases hhead : HeaderOk d.byte (lba * d.ss) lba ∧ (d.header lba).InBounds d.total
  swap
  · rw [if_pos (Or.inr (by rwa [← not_and_or, hok])), if_neg fun hr ↦ hhead ⟨hr.1.1, hr.1.2.1⟩]
    rfl
  have hlen : n * d.ss = (d.sectorsFrom low n).len := rfl
  rw [if_neg (by rw [hok]; simp only [hhead, not_true_eq_false, or_false]; omega)]
  by_cases hbefore : 2 + (d.header lba).entrySectors d.ss > (d.header lba).firstUsable
  · rw [if_pos hbefore, if_neg fun hr ↦ Nat.not_le.2 hbefore hr.1.2.2.1]
    rfl
  have hfew := Header.entrySectors_le hss hhead.2
  have husable := hhead.2.2.1
  rw [if_neg hbefore, addU64, if_pos (by omega)]
  show (if _ then _ else _) = _
  by_cases hafter : (d.header lba).lastUsable + 1 + (d.header lba).entrySectors d.ss > d.total - 1
  · rw [if_pos hafter, if_neg fun hr ↦ Nat.not_le.2 hafter hr.1.2.2.2.1]
    rfl
  rw [if_neg hafter]
  by_cases hentries : low ≤ (d.header lba).entriesLba ∧ ((d.header lba).entriesLba - low) * d.ss +
      (d.header lba).count * (d.header lba).size ≤ n * d.ss
  swap
  · rw [if_neg fun hr ↦ hentries hr.2.2.2]
    rw [offsetOf]
    split_ifs with hoff
    · exact if_pos (Or.inl (Nat.not_le.1 fun hend ↦ hentries ⟨hoff.1, hend⟩))
    · rfl
  have hat := add_offset (d := d) hentries.1
  rw [offsetOf_eq hentries.1 (by omega)]
  dsimp only
  have hbytes : bytes (d.sectorsFrom low n).byte (((d.header lba).entriesLba - low) * d.ss)
      ((d.header lba).count * (d.header lba).size) =
      bytes d.byte (d.entriesAt lba) ((d.header lba).count * (d.header lba).size) :=
    bytes_congr fun i _ ↦ byte_sectorsFrom hentries.1 i
  rw [hbytes, gptSlots_congr hhead.2.2.2.1 (fun i _ ↦ byte_sectorsFrom hentries.1 i)
    fun i ↦ List.mem_range.1]
  by_cases hcrc : crc32 (bytes d.byte (d.entriesAt lba)
      ((d.header lba).count * (d.header lba).size)) = (d.header lba).entriesCrc
  swap
  · rw [if_pos (Or.inr hcrc), if_neg fun hr ↦ hcrc hr.1.2.2.2.2.2]
    rfl
  have honDisk : d.entriesAt lba + (d.header lba).count * (d.header lba).size ≤ d.total * d.ss := by
    have := Nat.mul_le_mul_right d.ss hlow
    rw [Nat.add_mul] at this
    rw [entriesAt]
    omega
  rw [if_neg (not_or.2 ⟨hlen ▸ Nat.not_lt.2 hentries.2, not_not.2 hcrc⟩), if_pos ⟨⟨hhead.1, hhead.2,
    Nat.not_lt.1 hbefore, Nat.not_lt.1 hafter, honDisk, hcrc⟩, hle, hlt, hentries⟩]
  rfl

/-! ## The table of a disk -/

/-- The table `parse_mbr` makes. -/
def mbrTable (d : Disk) (boot : Vector UInt8 446) : Table where
  scheme := .mbr
  sectorSize := d.ss
  diskSectors := d.total
  diskGuid := zeroGuid
  firstUsable := 1
  lastUsable := min d.total (2 ^ 32) - 1
  entries := (List.range 4).filterMap (mbrSlot d.byte)
  slots := 4
  boot := boot
  fromBackup := false

/-- Sector 0's first 446 bytes. -/
def bootBytes (d : Disk) : Vector UInt8 446 := Vector.ofFn fun i ↦ d.byte i

theorem sectorsFrom_zero (d : Disk) (n : ℕ) : d.sectorsFrom 0 n = ⟨n * d.ss, d.byte⟩ := by
  simp only [sectorsFrom, Nat.zero_mul, Nat.zero_add]

theorem parseBackup_eq (hss : 512 ≤ d.ss) (htotal : d.total + 2048 ≤ 2 ^ 64) (hpos : 0 < d.total)
    (hle : n ≤ d.total) (hn : n * d.ss < 2 ^ 63) :
    parseBackup (d.sectorsFrom (d.total - n) n) d.ss d.total boot =
      if d.Readable (d.total - 1) (d.total - n) n then
        (gptSlots d.byte (d.entriesAt (d.total - 1)) (d.header (d.total - 1)).size
          (List.range (d.header (d.total - 1)).count)).map
          fun es ↦ some (d.gptTable (d.total - 1) boot es)
      else .ok none := by
  have hlen : (d.sectorsFrom (d.total - n) n).len = n * d.ss := rfl
  have hcount : n * d.ss / d.ss = n := Nat.mul_div_cancel _ (by omega)
  rw [parseBackup, hlen, hcount]
  by_cases hzero : n = 0
  · rw [if_pos (Or.inr (by rw [hzero, Nat.zero_mul])), if_neg]
    rintro ⟨-, hlow, -⟩
    omega
  · have hlen : n * d.ss ≠ 0 := Nat.mul_ne_zero hzero (by omega)
    rw [if_neg (by omega), subU64, if_pos (by omega)]
    exact parseGpt_eq hss htotal (by omega) hn (by omega) (by omega)

/-- **What is read of a disk with a table.** -/
theorem parsed_eq (hr : d.Reads headN tailN) (hsigned : Signed (d.sectorsFrom 0 headN) d.ss)
    (htotal : d.total + 2048 ≤ 2 ^ 64) :
    d.parsed headN tailN =
      if HasProtective d.byte ∧ d.Readable 1 0 headN then
        (gptSlots d.byte (d.entriesAt 1) (d.header 1).size (List.range (d.header 1).count)).map
          fun es ↦ some (d.gptTable 1 d.bootBytes es)
      else if HasProtective d.byte ∧ d.Readable (d.total - 1) (d.total - tailN) tailN then
        (gptSlots d.byte (d.entriesAt (d.total - 1)) (d.header (d.total - 1)).size
          (List.range (d.header (d.total - 1)).count)).map
          fun es ↦ some { d.gptTable (d.total - 1) d.bootBytes es with fromBackup := true }
      else .ok (some (d.mbrTable d.bootBytes)) := by
  have hss := hsigned.2.1
  have hlen : 2 * d.ss ≤ headN * d.ss := hsigned.2.2.1
  have htwo : 2 ≤ headN := Nat.le_of_mul_le_mul_right hlen (by omega)
  have hhead := hr.head_le
  have hprimary := @parseGpt_eq d 1 0 headN d.bootBytes hss htotal
    (by omega) hr.head_fits (by omega) (by omega)
  have hbackup := @parseBackup_eq d tailN d.bootBytes hss htotal (by omega) hr.tail_le hr.tail_fits
  have hmbr : parseMbr d.byte d.ss d.total d.bootBytes = .ok (d.mbrTable d.bootBytes) := by
    rw [parseMbr, subU64, if_pos (by omega)]
    rfl
  rw [sectorsFrom_zero] at hprimary hsigned
  rw [parsed, parse, sectorsFrom_zero]
  rw [if_neg (not_not.2 hsigned)]
  dsimp only
  rw [← bootBytes, hprimary, hbackup, hmbr]
  by_cases hprot : HasProtective d.byte
  · simp only [hprot, true_and]
    by_cases hone : d.Readable 1 0 headN
    · rw [if_pos hone, if_pos hone]
      cases gptSlots d.byte (d.entriesAt 1) (d.header 1).size
        (List.range (d.header 1).count) <;> rfl
    · rw [if_neg hone, if_neg hone]
      by_cases htwo : d.Readable (d.total - 1) (d.total - tailN) tailN
      · rw [if_pos htwo, if_pos htwo]
        cases gptSlots d.byte (d.entriesAt (d.total - 1)) (d.header (d.total - 1)).size
          (List.range (d.header (d.total - 1)).count) <;> rfl
      · rw [if_neg htwo, if_neg htwo]
        rfl
  · simp only [hprot, if_false]
    rfl

/-! ## Sane disks -/

theorem slot_pos {i : ℕ} {e : Entry} (h : d.slot lba i = some e) : 0 < e.sectors := by
  rw [slot, slotEntry] at h
  split_ifs at h
  cases h
  exact Nat.succ_pos _

/-- The entries of a sane GPT are read without overflow. -/
theorem slots_eq (htotal : d.total + 2048 ≤ 2 ^ 64) (hslots : d.SlotsOk lba) :
    gptSlots d.byte (d.entriesAt lba) (d.header lba).size (List.range (d.header lba).count) =
      .ok ((List.range (d.header lba).count).filterMap (d.slot lba)) := by
  refine gptSlots_eq fun i hi e he ↦ ?_
  have := (hslots i (List.mem_range.1 hi) e he).1
  omega

theorem gptTable_inv (hss : 512 ≤ d.ss) (htotal : d.total + 2048 ≤ 2 ^ 64) (hgpt : d.GptAt lba)
    (hslots : d.SlotsOk lba) (boot : Vector UInt8 446) :
    (d.gptTable lba boot ((List.range (d.header lba).count).filterMap (d.slot lba))).Inv := by
  have hmem : ∀ e ∈ (List.range (d.header lba).count).filterMap (d.slot lba),
      0 < e.sectors ∧ e.first + e.sectors ≤ d.total ∧ e.first ≤ (d.header lba).lastUsable + 1 := by
    intro e he
    obtain ⟨i, hi, hslot⟩ := List.mem_filterMap.1 he
    exact ⟨slot_pos hslot, hslots i (List.mem_range.1 hi) e hslot⟩
  exact ⟨htotal, hss, hgpt.2.1.2.1, fun e he ↦ (hmem e he).1, fun e he ↦ (hmem e he).2.1,
    fun e he ↦ (hmem e he).2.2, sorted_filterMap (fun _ _ ↦ slotEntry_index) _⟩

theorem mbrTable_inv (hss : 512 ≤ d.ss) (htotal : d.total + 2048 ≤ 2 ^ 64) (hpos : 0 < d.total)
    (hmbr : d.MbrOk) (boot : Vector UInt8 446) : (d.mbrTable boot).Inv := by
  have hmem : ∀ e ∈ (List.range 4).filterMap (mbrSlot d.byte),
      0 < e.sectors ∧ e.first < 2 ^ 32 ∧ e.first + e.sectors ≤ d.total := by
    intro e he
    obtain ⟨i, hi, hslot⟩ := List.mem_filterMap.1 he
    have hend := hmbr i (List.mem_range.1 hi) e hslot
    rw [mbrSlot] at hslot
    split_ifs at hslot with hused
    cases hslot
    exact ⟨hused.2.2, le_lt d.byte _ 4, hend⟩
  refine ⟨htotal, hss, ?_, fun e he ↦ (hmem e he).1, fun e he ↦ (hmem e he).2.2, fun e he ↦ ?_,
    sorted_filterMap (fun _ _ ↦ mbrSlot_index) _⟩
  · show min d.total (2 ^ 32) - 1 < d.total
    omega
  · show e.first ≤ min d.total (2 ^ 32) - 1 + 1
    have := hmem e he
    omega

/-- `parse` of these sectors does not overflow; it gives no MBR for a disk that carries a GPT; and
whatever calls follow, every entry lies on the disk, `add` and `resize` do not overflow, and the
partition they add or resize is usable space apart from every other. -/
def KeepsToSpace (d : Disk) (headN tailN : ℕ) : Prop :=
  Safe (fun o ↦ ∀ t, o = some t → (t.scheme = .mbr → ¬d.CarriesGpt) ∧
    ∀ calls s, Machine.run step t calls = some s →
      (∀ e ∈ s.entries, e.first + e.sectors ≤ d.total) ∧
      (∀ code label first sectors guid,
        Safe (fun p ↦ p.1.Apart p.2) (s.add code label first sectors guid)) ∧
      ∀ index sectors, Safe (fun s' ↦ s'.Apart index) (s.resize index sectors))
    (d.parsed headN tailN)

/-- **A sane disk's table keeps to the disk's space.** -/
theorem parsed_safe (d : Disk) (headN tailN : ℕ) (hr : d.Reads headN tailN)
    (hs : d.Sane headN tailN) : d.KeepsToSpace headN tailN := by
  by_cases hsigned : Signed (d.sectorsFrom 0 headN) d.ss
  swap
  · rw [KeepsToSpace, parsed, parse, if_pos hsigned]
    simp
  obtain ⟨htotal, hgpt, hentries⟩ := hs hsigned
  have hss := hsigned.2.1
  have hruns {t : Table} (h : t.Inv) (hdisk : t.diskSectors = d.total) (calls : List Call)
      (s : Table) (hrun : Machine.run step t calls = some s) :
      (∀ e ∈ s.entries, e.first + e.sectors ≤ d.total) ∧
      (∀ code label first sectors guid,
        Safe (fun p ↦ p.1.Apart p.2) (s.add code label first sectors guid)) ∧
      ∀ index sectors, Safe (fun s' ↦ s'.Apart index) (s.resize index sectors) := by
    obtain ⟨hinv, heq⟩ := h.run hrun
    refine ⟨fun e he ↦ hdisk ▸ heq ▸ hinv.onDisk e he, ?_, ?_⟩
    · intro code label first sectors guid
      exact (Table.add_safe hinv code label first sectors guid).mono fun _ hp ↦ hp.2
    · intro index sectors
      exact (Table.resize_safe hinv index sectors).mono fun _ hp ↦ hp.2
  rw [KeepsToSpace, parsed_eq hr hsigned htotal]
  split_ifs at hentries ⊢ with hprimary hbackup
  · rw [slots_eq htotal hentries]
    rintro t ⟨rfl⟩
    exact ⟨nofun, hruns (gptTable_inv hss htotal hprimary.2.1 hentries _) rfl⟩
  · rw [slots_eq htotal hentries]
    rintro t ⟨rfl⟩
    have hinv := gptTable_inv hss htotal hbackup.2.1 hentries d.bootBytes
    exact ⟨nofun, hruns ⟨hinv.size, hinv.sector, hinv.usable, hinv.pos, hinv.onDisk, hinv.starts,
      hinv.sorted⟩ rfl⟩
  · rintro t ⟨rfl⟩
    refine ⟨fun _ hcarries ↦ ?_, hruns (mbrTable_inv hss htotal ?_ hentries _) rfl⟩
    · obtain ⟨hprot, hone | htwo⟩ := hgpt hcarries
      · exact hprimary ⟨hprot, hone⟩
      · exact hbackup ⟨hprot, htwo⟩
    · have hlen : 2 * d.ss ≤ headN * d.ss := hsigned.2.2.1
      have htwo : 2 ≤ headN := Nat.le_of_mul_le_mul_right hlen (by omega)
      have := hr.head_le
      omega

/-! ## Three disks -/

instance (d : Disk) (lba : ℕ) : Decidable (d.SlotsOk lba) :=
  inferInstanceAs (Decidable (∀ i < _, ∀ e ∈ d.slot lba i, _))

instance (d : Disk) : Decidable d.MbrOk :=
  inferInstanceAs (Decidable (∀ i < 4, ∀ e ∈ mbrSlot d.byte i, _))

instance (d : Disk) : Decidable d.CarriesGpt := inferInstanceAs (Decidable (_ ∨ _))

instance (d : Disk) (headN tailN : ℕ) : Decidable (d.Sane headN tailN) :=
  inferInstanceAs (Decidable (_ → _))

/-- A disk of 100 sectors whose MBR has one partition, of ten sectors from `first` on. -/
def small (first : UInt8) : Disk where
  sectorSize := 512
  sectors := 100
  byte := put (put (put (put (fun _ ↦ 0) 450 [0x83]) 454 [first]) 458 [10]) 510 [0x55, 0xAA]

/-- A disk of 100 sectors with a GPT of one slot: a partition of ten sectors from 40 on. -/
def smallGpt : Disk where
  sectorSize := 512
  sectors := 100
  byte := [(450, [0xEE]), (510, [0x55, 0xAA]), (512, efiPart), (524, [92]),
    (528, [0x8, 0x49, 0x5E, 0x24]), (536, [1]), (552, [34]), (560, [65]), (584, [2]), (592, [1]),
    (596, [128]), (600, [0xA4, 0x7D, 0x63, 0x25]), (1024, [7]), (1056, [40]), (1064, [49])].foldl
      (fun b field ↦ put b field.1 field.2) fun _ ↦ 0

-- the checksums of the GPT are folds over 92 and 128 bytes
set_option maxRecDepth 4000 in
theorem parsed_safe_small : ((small 63).KeepsToSpace 34 33 ∧ smallGpt.KeepsToSpace 34 33) ∧
    (smallGpt.parsed 34 33).toOption.join.map Table.scheme = some .gpt := by
  refine ⟨?_, by decide +kernel⟩
  have hreads : ∀ d ∈ [small 63, smallGpt], d.ss = 512 ∧ d.total = 100 := by decide
  have hsane : ∀ d ∈ [small 63, smallGpt], d.Sane 34 33 := by decide +kernel
  have hkeeps : ∀ d ∈ [small 63, smallGpt], d.KeepsToSpace 34 33 := by
    intro d hd
    obtain ⟨hss, htotal⟩ := hreads d hd
    exact parsed_safe d 34 33 ⟨by omega, by omega, by omega, by omega⟩ (hsane d hd)
  rwa [List.forall_mem_cons, List.forall_mem_singleton] at hkeeps

/-- A partition that starts past the disk's end is taken as it is. -/
theorem parsed_past_disk : ¬(small 200).KeepsToSpace 34 33 := by
  have hbad : (((small 200).parsed 34 33).toOption.join.any fun t ↦
      t.entries.any fun e ↦ (small 200).total < e.first + e.sectors) = true := by
    decide +kernel
  rw [KeepsToSpace]
  generalize (small 200).parsed 34 33 = r at hbad ⊢
  intro hkeeps
  obtain ⟨t, ht, hbad⟩ := (Option.any_eq_true _ _).1 hbad
  obtain ⟨e, he, hpast⟩ := List.any_eq_true.1 hbad
  cases r with
  | error _ => cases ht
  | ok r =>
    obtain rfl : r = some t := Option.some.inj (Option.join_eq_some_iff.1 ht)
    obtain ⟨-, hruns⟩ := hkeeps _ rfl
    exact absurd ((hruns [] _ rfl).1 e he) (Nat.not_le.2 (of_decide_eq_true hpast))

end Disk
end OxideBSD.Part
