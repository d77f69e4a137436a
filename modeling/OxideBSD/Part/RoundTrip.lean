import OxideBSD.Part.Slots

/-!
# Partition tables survive writing

A disk that a table was written to is read as that table, and when a GPT's primary header or its
entries are damaged, as the same table from the backup.

* `Disk.HoldsGpt`: a header and its array of entries are on a disk, and `readable_of_holds` that
  such a GPT is valid.
* `read_written` and `read_damaged`: what is read of the disk, as it was written and with the
  primary GPT overwritten.
* `table_survives`: both, for every table that calls with storable types make of a new table or of
  one that was read.
-/

set_option autoImplicit false

namespace OxideBSD.Part

open Bytes Res

/-! ## Headers -/

namespace Table

variable {t : Table} {crc this other entriesLba : ℕ}

/-- The fields of a header, its CRC last. -/
def allFields (t : Table) (crc this other entriesLba : ℕ) : List (ℕ × List UInt8) :=
  let fields := t.headerFields crc this other entriesLba
  fields ++ [(16, toLe 4 (crc32 (bytes (puts zeros fields) 0 92)))]

theorem header_eq : t.header crc this other entriesLba =
    puts zeros (t.allFields crc this other entriesLba) := rfl

theorem allFields_apart (t : Table) (crc this other entriesLba : ℕ) :
    (t.allFields crc this other entriesLba).Pairwise Bytes.Apart := by
  simp only [allFields, headerFields, List.cons_append, List.nil_append, List.pairwise_cons,
    List.mem_cons, List.not_mem_nil, forall_eq_or_imp, Bytes.Apart, length_toLe,
    Vector.length_toList, show efiPart.length = 8 from rfl, false_imp_iff, implies_true,
    List.Pairwise.nil, and_true]
  omega

theorem crc32_lt (data : List UInt8) : crc32 data < 2 ^ 32 := UInt32.toNat_lt _

theorem header_ok (hthis : this < 2 ^ 64) :
    HeaderOk (t.header crc this other entriesLba) 0 this := by
  have hfs := allFields_apart t crc this other entriesLba
  have hsize : le32 (t.header crc this other entriesLba) (0 + 12) = 92 :=
    le_puts hfs (by simp [allFields, headerFields]) (by decide)
  have hsignature : bytes (t.header crc this other entriesLba) 0 efiPart.length = efiPart :=
    bytes_puts hfs (by simp [headerFields])
  refine ⟨hsignature, by rw [hsize]; decide, ?_,
    le_puts hfs (by simp [allFields, headerFields]) hthis⟩
  -- The CRC was taken with its own field zero.
  have hcopy : withoutCrc (t.header crc this other entriesLba) 0 92 =
      bytes (puts zeros (t.headerFields crc this other entriesLba)) 0 92 := by
    refine List.map_congr_left fun i _ ↦ ?_
    split_ifs with hcrc
    · symm
      refine puts_of_outside fun f hf ↦ ?_
      simp only [headerFields, List.mem_cons, List.not_mem_nil, or_false] at hf
      rcases hf with rfl | rfl | rfl | rfl | rfl | rfl | rfl | rfl | rfl | rfl | rfl | rfl <;>
        simp only [length_toLe, show efiPart.length = 8 from rfl] <;> omega
    · rw [header_eq, allFields, puts, List.foldl_append]
      refine puts_of_outside fun f hf ↦ ?_
      rw [List.mem_singleton] at hf
      subst hf
      simp only [length_toLe]
      omega
  have hfield : le32 (t.header crc this other entriesLba) (0 + 16) =
      crc32 (bytes (puts zeros (t.headerFields crc this other entriesLba)) 0 92) :=
    le_puts hfs (by simp [allFields]) (crc32_lt _)
  rw [hsize, hcopy, hfield]

theorem headerAt_header (h : t.Kept) (hgpt : t.scheme = .gpt) (hcrc : crc < 2 ^ 32)
    (hlba : entriesLba < 2 ^ 64) : headerAt (t.header crc this other entriesLba) 0 =
      ⟨t.diskGuid, t.firstUsable, t.lastUsable, entriesLba, t.slots, gptEntrySize, crc⟩ := by
  have hfs := allFields_apart t crc this other entriesLba
  have hplaced := h.placed
  rw [Placed, hgpt] at hplaced
  have hsize := h.size
  have hguid : guidAt (t.header crc this other entriesLba) (0 + 56) = t.diskGuid :=
    guidAt_puts hfs (by simp [allFields, headerFields])
  have hfirst : le64 (t.header crc this other entriesLba) (0 + 40) = t.firstUsable :=
    le_puts hfs (by simp [allFields, headerFields]) (by omega)
  have hlast : le64 (t.header crc this other entriesLba) (0 + 48) = t.lastUsable :=
    le_puts hfs (by simp [allFields, headerFields]) (by omega)
  have hentries : le64 (t.header crc this other entriesLba) (0 + 72) = entriesLba :=
    le_puts hfs (by simp [allFields, headerFields]) hlba
  have hslots : le32 (t.header crc this other entriesLba) (0 + 80) = t.slots :=
    le_puts hfs (by simp [allFields, headerFields]) (by omega)
  have hentry : le32 (t.header crc this other entriesLba) (0 + 84) = gptEntrySize :=
    le_puts hfs (by simp [allFields, headerFields]) (by decide)
  have hcrc : le32 (t.header crc this other entriesLba) (0 + 88) = crc :=
    le_puts hfs (by simp [allFields, headerFields]) hcrc
  rw [headerAt, hguid, hfirst, hlast, hentries, hslots, hentry, hcrc]

/-- The CRC of the array of entries. -/
def arrayCrc (t : Table) : ℕ := crc32 (bytes (puts zeros t.array) 0 (t.slots * gptEntrySize))

theorem entrySectors_mul (h : t.Kept) : t.slots * gptEntrySize ≤ t.entrySectors * t.sectorSize := by
  have hsector := h.sector
  exact (divCeil_mul _ (by omega)).1

end Table

/-! ## GPTs on a disk -/

namespace Disk

variable {d : Disk} {t : Table} {headN tailN : ℕ} {lba other entriesLba : ℕ}

/-- The header of `t` for sector `lba` and its array of entries at `entriesLba` are on the disk. -/
structure HoldsGpt (d : Disk) (t : Table) (lba other entriesLba : ℕ) : Prop where
  header : ∀ i < 512, d.byte (lba * d.ss + i) = t.header t.arrayCrc lba other entriesLba i
  array : ∀ i < t.slots * gptEntrySize, d.byte (entriesLba * d.ss + i) = puts zeros t.array i

/-- The disk is of the table's size. -/
structure IsOf (d : Disk) (t : Table) : Prop where
  ss : d.ss = t.sectorSize
  total : d.total = t.diskSectors

/-- What `parse` finds of such a GPT. -/
theorem header_of_holds (hk : t.Kept) (hgpt : t.scheme = .gpt)
    (hh : d.HoldsGpt t lba other entriesLba) (hlba : entriesLba < 2 ^ 64) :
    d.header lba =
      ⟨t.diskGuid, t.firstUsable, t.lastUsable, entriesLba, t.slots, gptEntrySize, t.arrayCrc⟩ := by
  have hbytes : ∀ i < 512, d.byte (lba * d.ss + i) =
      t.header t.arrayCrc lba other entriesLba (0 + i) := by
    intro i hi
    rw [Nat.zero_add]
    exact hh.header i hi
  have hcrc : t.arrayCrc < 2 ^ 32 := Table.crc32_lt _
  rw [header, headerAt_congr hbytes, Table.headerAt_header hk hgpt hcrc hlba]

theorem readable_of_holds (hk : t.Kept) (hgpt : t.scheme = .gpt) (hof : d.IsOf t) {low n : ℕ}
    (hh : d.HoldsGpt t lba other entriesLba) (hlba : lba < 2 ^ 64) (hlow : low ≤ entriesLba)
    (hhigh : entriesLba + t.entrySectors ≤ low + n) (htotal : low + n ≤ d.total)
    (hin : low ≤ lba ∧ lba < low + n) : d.Readable lba low n := by
  have hplaced := hk.placed
  rw [Table.Placed, hgpt] at hplaced
  have hsectors := d.sectors.toNat_lt
  have hlt : entriesLba < 2 ^ 64 := by
    change d.total < 2 ^ 64 at hsectors
    omega
  have hmul := Table.entrySectors_mul hk
  have hle (m : ℕ) (hm : entriesLba - low + t.entrySectors ≤ m) :
      (entriesLba - low) * d.ss + t.slots * gptEntrySize ≤ m * d.ss := by
    have := Nat.mul_le_mul_right d.ss hm
    rw [Nat.add_mul, hof.ss] at this
    rw [hof.ss]
    omega
  have hbytes : ∀ i < t.slots * gptEntrySize, d.byte (entriesLba * d.ss + i) =
      puts zeros t.array (0 + i) := by
    intro i hi
    rw [Nat.zero_add]
    exact hh.array i hi
  have hok : HeaderOk d.byte (lba * d.ss) lba := by
    have hwritten : HeaderOk (t.header t.arrayCrc lba other entriesLba) 0 lba :=
      Table.header_ok hlba
    refine headerOk_of_congr (fun i hi ↦ ?_) hwritten
    rw [Nat.zero_add]
    exact (hh.header i hi).symm
  have hend : entriesLba * d.ss + t.slots * gptEntrySize ≤ d.total * d.ss := by
    have := Nat.mul_le_mul_right d.ss (show entriesLba + t.entrySectors ≤ d.total by omega)
    rw [Nat.add_mul, hof.ss] at this
    rw [hof.ss]
    omega
  have hheader := header_of_holds hk hgpt hh hlt
  rw [Readable, GptAt, entriesAt, hheader, hof.ss, hof.total]
  rw [hof.total] at htotal hend
  rw [hof.ss] at hend hbytes hok hle
  have husable : t.lastUsable < t.diskSectors := by omega
  refine ⟨⟨hok, ⟨hplaced.2.1, husable, (by decide : 128 ≤ gptEntrySize),
    (by decide : gptEntrySize ≤ 4096),
    (by decide : gptEntrySize % 8 = 0), hplaced.1⟩, hplaced.2.2.1,
    hplaced.2.2.2, hend, ?_⟩, hin.1, hin.2, hlow, hle n (by omega)⟩
  exact congrArg crc32 (bytes_congr hbytes)

/-- The entries of such a GPT. -/
theorem slots_of_holds (hk : t.Kept) (hgpt : t.scheme = .gpt)
    (hh : d.HoldsGpt t lba other entriesLba) (hlba : entriesLba < 2 ^ 64) :
    gptSlots d.byte (d.entriesAt lba) (d.header lba).size (List.range (d.header lba).count) =
      .ok t.entries := by
  have hbytes : ∀ i < t.slots * gptEntrySize, d.byte (entriesLba * d.ss + i) =
      puts zeros t.array (0 + i) := by
    intro i hi
    rw [Nat.zero_add]
    exact hh.array i hi
  rw [entriesAt, header_of_holds hk hgpt hh hlba,
    gptSlots_congr (by decide) hbytes fun i ↦ List.mem_range.1]
  exact Table.slots_array hk.entries hgpt

theorem gptTable_of_holds (hk : t.Kept) (hgpt : t.scheme = .gpt) (hof : d.IsOf t)
    (hh : d.HoldsGpt t lba other entriesLba) (hlba : entriesLba < 2 ^ 64) :
    d.gptTable lba t.boot t.entries = { t with fromBackup := false } := by
  rw [gptTable, header_of_holds hk hgpt hh hlba, hof.ss, hof.total, ← hgpt]

/-! ## Sector 0 on a disk -/

/-- The table's sector 0 is on the disk. -/
def HoldsSector0 (d : Disk) (t : Table) : Prop := ∀ i < 512, d.byte i = puts zeros t.fields0 i

theorem signed_of_sector0 (hk : t.Kept) (hof : d.IsOf t) (hsec : d.HoldsSector0 t)
    (hhead : 2 ≤ headN) : Signed (d.sectorsFrom 0 headN) d.ss := by
  refine ⟨hof.ss ▸ hk.power, hof.ss ▸ hk.sector, Nat.mul_le_mul_right _ hhead, ?_⟩
  have hmem : (510, [0x55, 0xAA]) ∈ t.fields0 := by simp [Table.fields0]
  have hfield := bytes_puts (b := zeros) (Table.fields0_apart hk) hmem
  rw [sectorsFrom_zero]
  exact (bytes_congr fun i hi ↦ hsec (510 + i) (by omega)).trans hfield

theorem bootBytes_of_sector0 (hk : t.Kept) (hsec : d.HoldsSector0 t) : d.bootBytes = t.boot := by
  refine Vector.ext fun i hi ↦ ?_
  have hlen : i < t.boot.toList.length := by simpa using hi
  have hmem : (0, t.boot.toList) ∈ t.fields0 := by simp [Table.fields0]
  have hbyte := puts_of_mem (b := zeros) (Table.fields0_apart hk) hmem hlen
  rw [Nat.zero_add, List.getD_eq_getElem _ 0 hlen, Vector.getElem_toList] at hbyte
  rw [bootBytes, Vector.getElem_ofFn, hsec i (by omega), hbyte]

theorem protective_of_sector0 (hk : t.Kept) (hsec : d.HoldsSector0 t) :
    HasProtective d.byte ↔ t.scheme = .gpt := by
  rw [← Table.protective_sector0 hk]
  refine exists_congr fun i ↦ and_congr_right fun hi ↦ ?_
  rw [hsec _ (by omega)]

theorem mbrSlots_of_sector0 (hk : t.Kept) (hmbr : t.scheme = .mbr) (hsec : d.HoldsSector0 t) :
    (List.range 4).filterMap (mbrSlot d.byte) = t.entries := by
  rw [← Table.slots_sector0 hk hmbr]
  refine List.filterMap_congr fun i hi ↦ ?_
  have hlt := List.mem_range.1 hi
  have hle (a n : ℕ) (ha : a + n ≤ 512) : le d.byte a n = le (puts zeros t.fields0) a n :=
    le_congr fun k hk ↦ hsec (a + k) (by omega)
  rw [mbrSlot, le32, le32, hle _ _ (by omega), hle _ _ (by omega), hsec _ (by omega),
    hsec (446 + i * 16) (by omega)]
  rfl

/-! ## Reading back -/

/-- **A disk with the table is read as that table.** -/
theorem read_written (hk : t.Kept) (hof : d.IsOf t) (hr : d.Reads headN tailN)
    (hsec : d.HoldsSector0 t) (hhead : 2 ≤ headN)
    (hprimary : t.scheme = .gpt → d.HoldsGpt t 1 (d.total - 1) 2 ∧ 2 + t.entrySectors ≤ headN) :
    d.parsed headN tailN = .ok (some { t with fromBackup := false }) := by
  have htotal : d.total + 2048 ≤ 2 ^ 64 := hof.total ▸ hk.size
  have hfit := hr.head_le
  have hprot := protective_of_sector0 hk hsec
  rw [parsed_eq hr (signed_of_sector0 hk hof hsec hhead) htotal, bootBytes_of_sector0 hk hsec]
  rcases hs : t.scheme with _ | _
  · obtain ⟨hholds, hcover⟩ := hprimary hs
    have hread : d.Readable 1 0 headN :=
      readable_of_holds hk hs hof hholds (by decide) (by omega) (by omega) (by omega) (by omega)
    rw [if_pos ⟨hprot.2 hs, hread⟩, slots_of_holds hk hs hholds (by decide)]
    show (.ok (some (d.gptTable 1 t.boot t.entries)) : Res (Option Table)) = _
    rw [gptTable_of_holds hk hs hof hholds (by decide), hs]
  · have hnot : ¬HasProtective d.byte := by
      rw [hprot, hs]
      nofun
    rw [if_neg fun h ↦ hnot h.1, if_neg fun h ↦ hnot h.1, mbrTable, mbrSlots_of_sector0 hk hs hsec]
    have hplaced := hk.placed
    rw [Table.Placed, hs] at hplaced
    obtain ⟨hslots, hfirst, hlast, hguid, -⟩ := hplaced
    rw [hof.ss, hof.total, ← hslots, ← hlast, ← hfirst, ← hguid]

/-- **A disk whose primary GPT is damaged is read as the same table.** -/
theorem read_damaged (hk : t.Kept) (hgpt : t.scheme = .gpt) (hof : d.IsOf t)
    (hr : d.Reads headN tailN) (hsec : d.HoldsSector0 t) (hhead : 2 ≤ headN)
    (hholds : d.HoldsGpt t (d.total - 1) 1 (d.total - 1 - t.entrySectors))
    (hcover : 1 + t.entrySectors ≤ tailN) (hbad : ¬d.GptAt 1) :
    d.parsed headN tailN = .ok (some { t with fromBackup := true }) := by
  have htotal : d.total + 2048 ≤ 2 ^ 64 := hof.total ▸ hk.size
  have hfit := hr.tail_le
  have hread : d.Readable (d.total - 1) (d.total - tailN) tailN :=
    readable_of_holds hk hgpt hof hholds (by omega) (by omega) (by omega) (by omega) (by omega)
  rw [parsed_eq hr (signed_of_sector0 hk hof hsec hhead) htotal, bootBytes_of_sector0 hk hsec,
    if_neg fun h ↦ hbad h.2.1, if_pos ⟨(protective_of_sector0 hk hsec).2 hgpt, hread⟩,
    slots_of_holds hk hgpt hholds (by omega)]
  show (.ok (some { d.gptTable (d.total - 1) t.boot t.entries with fromBackup := true }) :
    Res (Option Table)) = _
  rw [gptTable_of_holds hk hgpt hof hholds (by omega)]

end Disk

/-! ## Writing -/

namespace Table

variable {t : Table}

/-- The sectors of the array of entries. -/
def padded (t : Table) : List UInt8 :=
  bytes (puts zeros t.array) 0 (t.slots * gptEntrySize) ++
    List.replicate (t.entrySectors * t.sectorSize - t.slots * gptEntrySize) 0

theorem length_padded (h : t.Kept) : t.padded.length = t.entrySectors * t.sectorSize := by
  have hle := entrySectors_mul h
  rw [padded, List.length_append, length_bytes, List.length_replicate]
  omega

/-- The sectors a table is written to. -/
def sectors (t : Table) : List (ℕ × List UInt8) :=
  let backup := t.diskSectors - 1
  let entriesLba := backup - t.entrySectors
  (0, bytes (puts zeros t.fields0) 0 t.sectorSize) ::
    match t.scheme with
    | .mbr => []
    | .gpt => [(1, bytes (t.header t.arrayCrc 1 backup 2) 0 t.sectorSize), (2, t.padded),
        (entriesLba, t.padded),
        (backup, bytes (t.header t.arrayCrc backup 1 entriesLba) 0 t.sectorSize)]

theorem write_eq (h : t.Kept) : t.write = .ok t.sectors := by
  have hsector := h.sector
  have hplaced := h.placed
  rw [write, if_neg (by omega), sectors]
  rcases hs : t.scheme with _ | _
  · rw [Placed, hs] at hplaced
    have hbackup : subU64 t.diskSectors 1 = .ok (t.diskSectors - 1) := if_pos (by omega)
    have hentries : subU64 (t.diskSectors - 1) (gptEntrySectors t.sectorSize t.slots gptEntrySize) =
        .ok (t.diskSectors - 1 - t.entrySectors) :=
      if_pos (show t.entrySectors ≤ t.diskSectors - 1 by omega)
    simp only [hbackup, arrayFields_eq h.entries, hentries, bind, Except.bind,
      length_bytes, fields0, hs]
    rfl
  · simp only [sector0, fields0, hs]

end Table

namespace Disk

variable {d : Disk} {t : Table} {lba : ℕ}

/-- Sectors that follow each other do not overlap. -/
theorem apart_of_sectors {ss n lba' n' : ℕ} {xs ys : List UInt8} (hxs : xs.length = n * ss)
    (hys : ys.length = n' * ss) (h : lba + n ≤ lba' ∨ lba' + n' ≤ lba) :
    Bytes.Apart (lba * ss, xs) (lba' * ss, ys) := by
  rw [Apart, hxs, hys, ← Nat.add_mul, ← Nat.add_mul]
  exact h.imp (Nat.mul_le_mul_right ss) (Nat.mul_le_mul_right ss)

theorem sectors_apart (hk : t.Kept) :
    (t.sectors.map fun w ↦ (w.1 * t.sectorSize, w.2)).Pairwise Bytes.Apart := by
  have hplaced := hk.placed
  rw [Table.sectors]
  rcases hs : t.scheme with _ | _
  · rw [Table.Placed, hs] at hplaced
    have hone (b : ℕ → UInt8) : (bytes b 0 t.sectorSize).length = 1 * t.sectorSize := by
      rw [length_bytes, Nat.one_mul]
    have hpad := Table.length_padded hk
    simp only [List.map_cons, List.map_nil, List.pairwise_cons, List.mem_cons, List.not_mem_nil,
      forall_eq_or_imp, false_imp_iff, implies_true, List.Pairwise.nil, and_true]
    refine ⟨⟨?_, ?_, ?_, ?_⟩, ⟨?_, ?_, ?_⟩, ⟨?_, ?_⟩, ?_⟩
    · exact apart_of_sectors (hone _) (hone _) (by omega)
    · exact apart_of_sectors (hone _) hpad (by omega)
    · exact apart_of_sectors (hone _) hpad (by omega)
    · exact apart_of_sectors (hone _) (hone _) (by omega)
    · exact apart_of_sectors (hone _) hpad (by omega)
    · exact apart_of_sectors (hone _) hpad (by omega)
    · exact apart_of_sectors (hone _) (hone _) (by omega)
    · exact apart_of_sectors hpad hpad (by omega)
    · exact apart_of_sectors hpad (hone _) (by omega)
    · exact apart_of_sectors hpad (hone _) (by omega)
  · simp

/-- What is written is there. -/
theorem byte_write (hk : t.Kept) (hof : d.IsOf t) {i : ℕ} {xs : List UInt8}
    (hmem : (lba, xs) ∈ t.sectors) (hi : i < xs.length) :
    (d.write t.sectors).byte (lba * d.ss + i) = xs.getD i 0 := by
  have hfs := sectors_apart hk
  rw [← hof.ss] at hfs
  exact puts_of_mem hfs (List.mem_map.2 ⟨(lba, xs), hmem, rfl⟩) hi

theorem getD_bytes {b : ℕ → UInt8} {n i : ℕ} (hi : i < n) : (bytes b 0 n).getD i 0 = b i := by
  rw [List.getD_eq_getElem _ 0 (by simpa using hi)]
  simp [bytes]

theorem holdsSector0_write (hk : t.Kept) (hof : d.IsOf t) : (d.write t.sectors).HoldsSector0 t := by
  intro i hi
  have hsector := hk.sector
  have hmem : (0, bytes (puts zeros t.fields0) 0 t.sectorSize) ∈ t.sectors := List.mem_cons_self
  have hbyte := byte_write hk hof (i := i) hmem (by rw [length_bytes]; omega)
  rwa [Nat.zero_mul, Nat.zero_add, getD_bytes (by omega)] at hbyte

theorem holdsGpt_write (hk : t.Kept) (hof : d.IsOf t) {other entriesLba : ℕ}
    (hheader : (lba, bytes (t.header t.arrayCrc lba other entriesLba) 0 t.sectorSize) ∈ t.sectors)
    (harray : (entriesLba, t.padded) ∈ t.sectors) :
    (d.write t.sectors).HoldsGpt t lba other entriesLba := by
  have hsector := hk.sector
  have hmul := Table.entrySectors_mul hk
  refine ⟨fun i hi ↦ ?_, fun i hi ↦ ?_⟩
  · exact (byte_write hk hof hheader (by rw [length_bytes]; omega)).trans (getD_bytes (by omega))
  · refine (byte_write hk hof harray (by rw [Table.length_padded hk]; omega)).trans ?_
    rw [Table.padded, List.getD_append _ _ _ _ (by rwa [length_bytes])]
    exact getD_bytes hi

/-- `d'` is `d` with any bytes in the sectors of the primary header and its entries. -/
structure DamagedTo (d d' : Disk) (t : Table) : Prop where
  sectorSize : d'.sectorSize = d.sectorSize
  sectors : d'.sectors = d.sectors
  byte : ∀ i, i < d.ss ∨ (2 + t.entrySectors) * d.ss ≤ i → d'.byte i = d.byte i

end Disk

/-- The table is read back from every disk of its size that it is written to, from the backup if the
primary GPT is damaged; by the first `headN` sectors and the last `tailN`, as far as these hold the
header and the entries. -/
def Table.Survives (t : Table) : Prop :=
  ∃ ws, t.write = .ok ws ∧ ∀ (d : Disk) (headN tailN : ℕ), d.IsOf t → d.Reads headN tailN →
    2 ≤ headN → (t.scheme = .gpt → 2 + t.entrySectors ≤ headN) →
    (d.write ws).parsed headN tailN = .ok (some { t with fromBackup := false }) ∧
    (t.scheme = .gpt → 1 + t.entrySectors ≤ tailN → ∀ d' : Disk, (d.write ws).DamagedTo d' t →
      ¬d'.GptAt 1 → d'.parsed headN tailN = .ok (some { t with fromBackup := true }))

variable {t : Table}

theorem Table.Kept.survives (hk : t.Kept) : t.Survives := by
  refine ⟨t.sectors, Table.write_eq hk, fun d headN tailN hof hr hhead hcover ↦ ?_⟩
  have hplaced := hk.placed
  have hsec := Disk.holdsSector0_write hk hof
  refine ⟨Disk.read_written hk ⟨hof.ss, hof.total⟩ ⟨hr.1, hr.2, hr.3, hr.4⟩ hsec hhead fun hgpt ↦
    ⟨Disk.holdsGpt_write hk hof ?_ ?_, hcover hgpt⟩, fun hgpt htail d' hdam hbad ↦ ?_⟩
  · simp [Table.sectors, hgpt, Disk.write, Disk.total, ← hof.total]
  · simp [Table.sectors, hgpt]
  rw [Table.Placed, hgpt] at hplaced
  have hss : d'.ss = d.ss := congrArg UInt32.toNat hdam.sectorSize
  have htotal : d'.total = d.total := congrArg UInt64.toNat hdam.sectors
  have hsector := hof.ss ▸ hk.sector
  have hdisk := hof.total
  -- Sector 0 and the backup are outside of what was overwritten.
  have hbackup : (d.write t.sectors).HoldsGpt t (d.total - 1) 1 (d.total - 1 - t.entrySectors) :=
    Disk.holdsGpt_write hk hof (by simp [Table.sectors, hgpt, hdisk])
      (by simp [Table.sectors, hgpt, hdisk])
  have hpast {lba : ℕ} (hlba : 2 + t.entrySectors ≤ lba) (i : ℕ) :
      d'.byte (lba * d'.ss + i) = (d.write t.sectors).byte (lba * d.ss + i) := by
    rw [hss]
    exact hdam.byte _ (Or.inr (Nat.le_trans (Nat.mul_le_mul_right _ hlba) (Nat.le_add_right _ _)))
  have hholds : d'.HoldsGpt t (d'.total - 1) 1 (d'.total - 1 - t.entrySectors) := by
    rw [htotal]
    exact ⟨fun i hi ↦ (hpast (by omega) i).trans (hbackup.header i hi),
      fun i hi ↦ (hpast (by omega) i).trans (hbackup.array i hi)⟩
  have hsec' : d'.HoldsSector0 t := fun i hi ↦
    (hdam.byte i (Or.inl (Nat.lt_of_lt_of_le hi hsector))).trans (hsec i hi)
  exact Disk.read_damaged hk hgpt ⟨hss.trans hof.ss, htotal.trans hof.total⟩
    ⟨htotal ▸ hr.1, htotal ▸ hr.2, hss ▸ hr.3, hss ▸ hr.4⟩ hsec' hhead hholds htail hbad

/-! ## Every table reached -/

/-- A table to start from: a new one, for a sector size there is on a disk not within 2048 sectors
of the largest, an MBR's without a disk GUID; or one that was read, none of its partitions ending
with the largest sector number. -/
inductive Start : Table → Prop
  | new {scheme : Scheme} {sectorSize diskSectors : ℕ} {diskGuid : Guid} {t : Table}
      (hnew : Table.new scheme sectorSize diskSectors diskGuid = .ok t)
      (hpower : 2 ^ sectorSize.log2 = sectorSize) (hsector : 512 ≤ sectorSize)
      (hsize : diskSectors + 2048 ≤ 2 ^ 64) (hguid : scheme = .mbr → diskGuid = zeroGuid) : Start t
  | read {d : Disk} {headN tailN : ℕ} {t : Table} (hr : d.Reads headN tailN)
      (hsize : d.total + 2048 ≤ 2 ^ 64) (hparsed : d.parsed headN tailN = .ok (some t))
      (hends : ∀ e ∈ t.entries, e.first + e.sectors < 2 ^ 64) : Start t

theorem Start.kept (h : Start t) : t.Kept := by
  cases h with
  | new hnew hpower hsector hsize hguid => exact new_kept hnew hpower hsector hsize hguid
  | read hr hsize hparsed hends => exact Disk.parsed_kept hr hsize hparsed hends

/-- **Partition tables survive writing.** -/
theorem table_survives {t₀ t : Table} {calls : List Call} (hstart : Start t₀)
    (hmeets : Machine.Meets step (fun t c ↦ c.Storable t) t₀ calls)
    (hrun : Machine.run step t₀ calls = some t) : t.Survives :=
  (Machine.run_inv (fun _ c _ hc h hstep ↦ step_kept c hc h hstep) hstart.kept hmeets hrun).survives

/-- An empty table for a disk of 100 sectors. -/
def fresh (scheme : Scheme) (firstUsable lastUsable slots : ℕ) : Table where
  scheme := scheme
  sectorSize := 512
  diskSectors := 100
  diskGuid := zeroGuid
  firstUsable := firstUsable
  lastUsable := lastUsable
  entries := []
  slots := slots
  boot := Vector.replicate 446 0
  fromBackup := false

/-- A BIOS boot partition of a new GPT. -/
theorem survives_gpt : ∃ t, Machine.run step (fresh .gpt 34 66 128)
    [.add (.gpt biosBootGuid) ['b'] (some 40) (some 8) zeroGuid] = some t ∧ t.Survives := by
  refine Machine.exists_run_of (fun _ ↦ True) (by decide +kernel) fun t hrun _ ↦ ?_
  have hnew : Table.new .gpt 512 100 zeroGuid = .ok (fresh .gpt 34 66 128) := rfl
  have hcode : (TypeCode.gpt biosBootGuid).Storable := by
    show biosBootGuid ≠ zeroGuid
    decide
  refine table_survives (.new hnew (by decide) (by decide) (by decide) nofun) ?_ hrun
  exact ⟨⟨hcode, nofun⟩, by split <;> trivial⟩

/-- A blank disk of 100 sectors. -/
def blankDisk : Disk := ⟨512, 100, zeros⟩

/-- A partition of type zero is added and written, and is not there any more. -/
theorem lost_partition : Table.new .mbr 512 100 zeroGuid = .ok (fresh .mbr 1 99 4) ∧
    ∃ t, Machine.run step (fresh .mbr 1 99 4)
      [.add (.mbr 0) [] (some 16) (some 8) zeroGuid] = some t ∧
      ¬t.Survives := by
  refine ⟨rfl, ?_⟩
  -- The disk the table is written to is read without its entry.
  refine Machine.exists_run_of (fun t ↦ t.sectorSize = 512 ∧ t.diskSectors = 100 ∧
    t.scheme = .mbr ∧ t.write.toOption.all fun ws ↦
      (blankDisk.write ws).parsed 34 33 ≠ .ok (some { t with fromBackup := false }))
    (by decide +kernel) fun t _ ⟨hss, htotal, hmbr, hlost⟩ ⟨ws, hwrite, hread⟩ ↦ ?_
  rw [hwrite] at hlost
  refine of_decide_eq_true hlost (hread blankDisk 34 33 ⟨hss.symm, htotal.symm⟩ ?_ (by decide) ?_).1
  · exact ⟨by decide, by decide, by decide, by decide⟩
  · rw [hmbr]
    nofun

end OxideBSD.Part
