import OxideBSD.Part.Sane
import OxideBSD.Part.Write

/-!
# Tables that can be written

What a table needs for its fields to hold it: types that are not taken for an empty slot or for a
protective entry, names of 36 units without a zero, numbers that fit.

* `Table.Kept` is that, and `step_kept` that every successful call keeps it, if the types it is
  given are `Storable`.
* `new_kept` and `parsed_kept`: it holds of new tables and of tables that were read.
-/

set_option autoImplicit false

namespace OxideBSD.Part

open Bytes Res

/-- A name the array of a GPT has room for, and that ends where it ends. -/
def LabelKept (label : List Char) : Prop :=
  (Utf16.encode label).length ≤ gptLabelUnits ∧ ∀ c ∈ label, c ≠ '\x00'

/-- A type that is read back as it was written. -/
def TypeCode.Storable : TypeCode → Prop
  | .gpt g => g ≠ zeroGuid
  | .mbr b => b ≠ 0 ∧ b ≠ mbrGptProtective

/-- An entry whose fields a table of this scheme has. -/
def Entry.Kept : Scheme → Entry → Prop
  | .gpt, e => (∃ g, e.code = .gpt g ∧ g ≠ zeroGuid) ∧ LabelKept e.label ∧ e.attributes < 2 ^ 64 ∧
      e.active = false
  | .mbr, e => (∃ b, e.code = .mbr b ∧ b ≠ 0 ∧ b ≠ mbrGptProtective) ∧ e.label = [] ∧
      e.guid = zeroGuid ∧ e.attributes = 0 ∧ e.first < 2 ^ 32 ∧ e.sectors < 2 ^ 32

namespace Table

variable {t t' : Table} {index : ℕ} {first len : ℕ}

/-- The sectors of the entries of a GPT. -/
def entrySectors (t : Table) : ℕ := gptEntrySectors t.sectorSize t.slots gptEntrySize

/-- There is room for the table around the usable sectors. -/
def Placed (t : Table) : Prop :=
  match t.scheme with
  | .gpt => t.slots ≤ 1024 ∧ t.firstUsable ≤ t.lastUsable ∧ 2 + t.entrySectors ≤ t.firstUsable ∧
      t.lastUsable + 1 + t.entrySectors ≤ t.diskSectors - 1
  | .mbr => t.slots = 4 ∧ t.firstUsable = 1 ∧ t.lastUsable = min t.diskSectors (2 ^ 32) - 1 ∧
      t.diskGuid = zeroGuid ∧ 2 ≤ t.diskSectors

/-- The entries have numbers of the table's slots, an end there is a number for, and fields that are
kept. -/
structure EntriesKept (t : Table) : Prop where
  sorted : t.entries.Pairwise fun a b ↦ a.index < b.index
  index : ∀ e ∈ t.entries, 1 ≤ e.index ∧ e.index ≤ t.slots
  ends : ∀ e ∈ t.entries, 0 < e.sectors ∧ e.first + e.sectors < 2 ^ 64
  fields : ∀ e ∈ t.entries, e.Kept t.scheme

/-- A table that can be written and read back. -/
structure Kept (t : Table) : Prop where
  power : 2 ^ t.sectorSize.log2 = t.sectorSize
  sector : 512 ≤ t.sectorSize
  size : t.diskSectors + 2048 ≤ 2 ^ 64
  placed : t.Placed
  entries : t.EntriesKept

/-! ## Calls -/

theorem place_bound {at' want : Option ℕ} (hwant : ∀ n, want = some n → 0 < n)
    (hplace : t.place at' want = .ok (first, len)) : 0 < len ∧ first + len < 2 ^ 64 := by
  have hadd {a b c : ℕ} (h : addU64 a b = .ok c) : c < 2 ^ 64 := by
    rw [addU64] at h
    split_ifs at h with hlt
    cases h
    exact hlt
  obtain ⟨gaps, -, hplace⟩ := of_bind_ok hplace
  cases at' with
  | some start =>
    obtain ⟨gap, -, hplace⟩ := of_bind_ok hplace
    rcases gap with _ | ⟨pos, n⟩
    · cases hplace
    · obtain ⟨past, hpast, hplace⟩ := of_bind_ok hplace
      have hroom := Nat.div_mul_le_self (past - start) t.block
      dsimp only at hplace
      split_ifs at hplace with hbad
      cases hplace
      have := hadd hpast
      omega
  | none =>
    induction gaps with
    | nil => cases hplace
    | cons gap gaps ih =>
      obtain ⟨start, -, hplace⟩ := of_bind_ok hplace
      obtain ⟨past, hpast, hplace⟩ := of_bind_ok hplace
      have hroom := Nat.div_mul_le_self (past - start) t.block
      have hlt := hadd hpast
      cases want with
      | none =>
        dsimp only at hplace
        split_ifs at hplace with hskip hpos
        · exact ih hplace
        · cases hplace
          omega
        · exact ih hplace
      | some n =>
        have := hwant n rfl
        dsimp only at hplace
        split_ifs at hplace with hskip hle
        · exact ih hplace
        · cases hplace
          omega
        · exact ih hplace

theorem fits_bound (h : t.fits first len index = .ok true) : first + len < 2 ^ 64 := by
  by_contra hge
  rw [fits, if_pos (Or.inl hge)] at h
  cases h

/-- What `check_label` lets pass is kept. -/
theorem labelKept_of_labelOk {label : List Char} (hgpt : t.scheme = .gpt)
    (h : t.labelOk label = true) :
    LabelKept label := by
  simp only [labelOk, hgpt, Bool.and_eq_true, decide_eq_true_eq, Bool.not_eq_true',
    List.any_eq_false, Bool.or_eq_true, not_or] at h
  exact ⟨h.1, fun c hc ↦ (h.2 c hc).1⟩

theorem pastMbr_bound (hmbr : t.scheme = .mbr) (h : t.pastMbr first len = false) :
    first < 2 ^ 32 ∧ len < 2 ^ 32 := by
  simp only [pastMbr, hmbr, decide_true, Bool.true_and, Bool.or_eq_false_iff,
    decide_eq_false_iff_not]
    at h
  omega

/-- A new entry's fields are kept. -/
theorem kept_of_add {code : TypeCode} {label : List Char} {guid : Guid}
    (hscheme : wrongScheme t.scheme code = false) (hlabel : t.labelOk label = true)
    (hmbr : t.pastMbr first len = false) (hcode : code.Storable)
    (hguid : t.scheme = .mbr → guid = zeroGuid) :
    Entry.Kept t.scheme {
      index, code, first, sectors := len, label, guid, attributes := 0, active := false } := by
  rcases hs : t.scheme with _ | _
  · cases code with
    | gpt g => exact ⟨⟨g, rfl, hcode⟩, labelKept_of_labelOk hs hlabel, Nat.two_pow_pos 64, rfl⟩
    | mbr b =>
      rw [hs] at hscheme
      cases hscheme
  · cases code with
    | gpt g =>
      rw [hs] at hscheme
      cases hscheme
    | mbr b =>
      simp only [labelOk, hs, List.isEmpty_iff] at hlabel
      exact ⟨⟨b, rfl, hcode⟩, hlabel, hguid hs, rfl, pastMbr_bound hs hmbr⟩

/-- A change of entries in place that keeps their numbers. -/
theorem EntriesKept.map (h : t.EntriesKept) {g : Entry → Entry}
    (hindex : ∀ e, (g e).index = e.index)
    (hg : ∀ e ∈ t.entries, (0 < (g e).sectors ∧ (g e).first + (g e).sectors < 2 ^ 64) ∧
      (g e).Kept t.scheme) : { t with entries := t.entries.map g }.EntriesKept := by
  refine ⟨?_, ?_, ?_, ?_⟩
  · rw [List.pairwise_map]
    simpa only [hindex] using h.sorted
  · simpa [hindex] using h.index
  · simpa using fun e he ↦ (hg e he).1
  · simpa using fun e he ↦ (hg e he).2

theorem EntriesKept.update (h : t.EntriesKept) {f : Entry → Entry}
    (hindex : ∀ e, (f e).index = e.index)
    (hf : ∀ e ∈ t.entries, e.index = index →
      (0 < (f e).sectors ∧ (f e).first + (f e).sectors < 2 ^ 64) ∧ (f e).Kept t.scheme) :
    { t with entries := Table.update index f t.entries }.EntriesKept := by
  rw [update_eq_map h.sorted]
  refine h.map (fun e ↦ by split_ifs <;> simp [hindex]) fun e he ↦ ?_
  split_ifs with heq
  · exact hf e he heq
  · exact ⟨h.ends e he, h.fields e he⟩

theorem EntriesKept.setActive (h : t.EntriesKept) {active : Bool}
    (hstep : t.setActive index active = .ok t') : t'.EntriesKept := by
  obtain ⟨hmbr, rfl⟩ := setActive_cases hstep
  refine h.map (fun _ ↦ rfl) fun e he ↦ ⟨h.ends e he, ?_⟩
  have hfields := h.fields e he
  rw [hmbr] at hfields ⊢
  exact hfields

end Table

/-- The types a call gives are storable, and so is the GUID an MBR partition is given. -/
def Call.Storable (t : Table) : Call → Prop
  | .add code _ _ _ guid => code.Storable ∧ (t.scheme = .mbr → guid = zeroGuid)
  | .modify _ (some code) _ => code.Storable
  | _ => True

variable {t : Table} {e : Entry} {b : ℕ → UInt8}

/-- A changed type and name. -/
theorem Table.kept_of_modify {code : Option TypeCode} {label : Option (List Char)}
    (hcode : code.any (wrongScheme t.scheme) = false)
    (hlabel : (label.any fun l ↦ !t.labelOk l) = false) (hstore : ∀ c, code = some c → c.Storable)
    (he : e.Kept t.scheme) :
    Entry.Kept t.scheme { e with code := code.getD e.code, label := label.getD e.label } := by
  have hok : ∀ l, label = some l → t.labelOk l = true := by
    rintro l rfl
    simpa using hlabel
  rcases hs : t.scheme with _ | _
  · rw [hs] at he
    obtain ⟨htype, hname, hrest⟩ := he
    refine ⟨?_, ?_, hrest⟩
    · cases code with
      | none => exact htype
      | some c =>
        cases c with
        | gpt g => exact ⟨g, rfl, hstore _ rfl⟩
        | mbr b => simp [hs, wrongScheme] at hcode
    · cases label with
      | none => exact hname
      | some l => exact labelKept_of_labelOk hs (hok l rfl)
  · rw [hs] at he
    obtain ⟨htype, hname, hrest⟩ := he
    refine ⟨?_, ?_, hrest⟩
    · cases code with
      | none => exact htype
      | some c =>
        cases c with
        | gpt g => simp [hs, wrongScheme] at hcode
        | mbr b => exact ⟨b, rfl, hstore _ rfl⟩
    · cases label with
      | none => exact hname
      | some l =>
        have hempty := hok l rfl
        simp only [labelOk, hs, List.isEmpty_iff] at hempty
        exact hempty

theorem step_entriesKept {t' : Table} {c : Call} (h : t.EntriesKept) (hc : c.Storable t)
    (hstep : step t c = some t') : t'.EntriesKept := by
  cases c with
  | add code label at' sectors guid =>
    obtain ⟨index, hadd⟩ := toOption_map_fst.1 hstep
    obtain ⟨hscheme, hlabel, hindex, want, first, len, hwant, hplace, hmbr, rfl⟩ :=
      Table.add_cases hadd
    obtain ⟨hrange, hfresh⟩ := Table.unused_spec hindex
    have hbound := Table.place_bound (Table.wanted_pos hwant) hplace
    refine ⟨Table.insert_sorted h.sorted hfresh, fun e he ↦ ?_, fun e he ↦ ?_, fun e he ↦ ?_⟩
    · rcases Table.mem_insert.1 he with rfl | he
      · exact hrange
      · exact h.index e he
    · rcases Table.mem_insert.1 he with rfl | he
      · exact hbound
      · exact h.ends e he
    · rcases Table.mem_insert.1 he with rfl | he
      · exact Table.kept_of_add hscheme hlabel hmbr hc.1 hc.2
      · exact h.fields e he
  | delete index =>
    obtain ⟨e, hdelete⟩ := toOption_map_fst.1 hstep
    obtain rfl := Table.delete_cases hdelete
    have hsub : (t.entries.eraseP fun e ↦ e.index = index).Sublist t.entries := List.eraseP_sublist
    exact ⟨h.sorted.sublist hsub, fun e he ↦ h.index e (hsub.subset he),
      fun e he ↦ h.ends e (hsub.subset he), fun e he ↦ h.fields e (hsub.subset he)⟩
  | resize index sectors =>
    obtain ⟨e, len, hentry, hpos, hfits, hmbr, rfl⟩ := Table.resize_cases (toOption_eq_some.1 hstep)
    refine h.update (fun _ ↦ rfl) fun o ho heq ↦ ?_
    have he := List.mem_of_find?_eq_some hentry
    have hindex : e.index = index := by simpa using List.find?_some hentry
    -- Numbers are unique: it is the entry that was checked.
    have hnodup : (t.entries.map Entry.index).Nodup :=
      List.pairwise_map.2 (h.sorted.imp Nat.ne_of_lt)
    obtain rfl := List.inj_on_of_nodup_map hnodup ho he (heq.trans hindex.symm)
    refine ⟨⟨hpos, Table.fits_bound hfits⟩, ?_⟩
    have hfields := h.fields o ho
    rcases hs : t.scheme with _ | _
    · rw [hs] at hfields
      exact hfields
    · rw [hs] at hfields
      obtain ⟨htype, hname, hguid, hattr, -, -⟩ := hfields
      exact ⟨htype, hname, hguid, hattr, Table.pastMbr_bound hs hmbr⟩
  | modify index code label =>
    obtain ⟨hcode, hlabel, rfl⟩ := Table.modify_cases (toOption_eq_some.1 hstep)
    refine h.update (fun _ ↦ rfl) fun e he _ ↦ ⟨h.ends e he, ?_⟩
    refine Table.kept_of_modify hcode hlabel ?_ (h.fields e he)
    rintro c rfl
    exact hc
  | setActive index active => exact h.setActive (toOption_eq_some.1 hstep)
  | setBiosBootcode code bios =>
    obtain ⟨⟨lba, bytes⟩, hboot⟩ := toOption_map_fst.1 hstep
    have hkept (boot : Vector UInt8 446) : { t with boot := boot }.EntriesKept :=
      ⟨h.sorted, h.index, h.ends, h.fields⟩
    obtain ⟨boot, rfl | ⟨index, hset⟩⟩ := Table.setBiosBootcodeIn_cases hboot
    · exact hkept boot
    · exact (hkept boot).setActive hset

/-- **Every successful call with storable types leaves a table that can be written.** -/
theorem step_kept {t' : Table} (c : Call) (hc : c.Storable t) (h : t.Kept)
    (hstep : step t c = some t') : t'.Kept := by
  have hentries := step_entriesKept h.entries hc hstep
  rw [step_geometry c hstep] at hentries ⊢
  exact ⟨h.power, h.sector, h.size, h.placed, hentries⟩

/-! ## The tables to start from -/

/-- An empty table's entries. -/
theorem Table.entriesKept_nil (h : t.entries = []) : t.EntriesKept := by
  constructor <;> simp [h]

/-- **A new table**, for a sector size there is on a disk not within 2048 sectors of the largest,
and for MBR without a disk GUID. -/
theorem new_kept {scheme : Scheme} {sectorSize diskSectors : ℕ} {diskGuid : Guid}
    (hnew : Table.new scheme sectorSize diskSectors diskGuid = .ok t)
    (hpower : 2 ^ sectorSize.log2 = sectorSize) (hsector : 512 ≤ sectorSize)
    (hsize : diskSectors + 2048 ≤ 2 ^ 64) (hguid : scheme = .mbr → diskGuid = zeroGuid) :
    t.Kept := by
  cases scheme with
  | gpt =>
    simp only [Table.new] at hnew
    split_ifs at hnew with hzero hsmall hrange
    cases hnew
    refine ⟨hpower, hsector, hsize, ?_, Table.entriesKept_nil rfl⟩
    simp only [Table.Placed, Table.entrySectors]
    refine ⟨by decide, by omega, Nat.le_refl _, by omega⟩
  | mbr =>
    simp only [Table.new] at hnew
    split_ifs at hnew with hsmall hrange
    cases hnew
    refine ⟨hpower, hsector, hsize, ⟨rfl, rfl, rfl, hguid rfl, ?_⟩, Table.entriesKept_nil rfl⟩
    show 2 ≤ diskSectors
    omega

theorem gptSlots_of_ok {start size : ℕ} {is : List ℕ} {es : List Entry}
    (h : gptSlots b start size is = .ok es) :
    es = is.filterMap fun i ↦ slotEntry b (start + i * size) i := by
  induction is generalizing es with
  | nil =>
    cases h
    rfl
  | cons i is ih =>
    obtain ⟨slot, hslot, h⟩ := of_bind_ok h
    obtain ⟨rest, hrest, h⟩ := of_bind_ok h
    cases h
    have hentry : slot = slotEntry b (start + i * size) i := by
      rw [gptSlot] at hslot
      rw [slotEntry]
      split_ifs at hslot with hzero hgt
      · cases hslot
        rw [if_pos (Or.inl hzero)]
      · cases hslot
        rw [if_pos (Or.inr hgt)]
      · obtain ⟨n, hadd, hslot⟩ := of_bind_ok hslot
        rw [addU64] at hadd
        split_ifs at hadd
        cases hadd
        cases hslot
        rw [if_neg (not_or.2 ⟨hzero, hgt⟩)]
    rw [List.filterMap_cons, ← hentry, ih hrest]
    cases slot <;> rfl

/-- The name read from a slot is kept. -/
theorem labelAt_kept (b : ℕ → UInt8) (a : ℕ) : LabelKept (labelAt b a) := by
  rw [labelAt]
  generalize hunits : ((List.range gptLabelUnits).map fun j ↦ le b (a + 56 + 2 * j) 2) = units
  have hlen : units.length = gptLabelUnits := by
    rw [← hunits, List.length_map, List.length_range]
  have hbound : ∀ u ∈ units.takeWhile (· ≠ 0), 0 < u ∧ u < 0x10000 := by
    intro u hu
    refine ⟨Nat.pos_of_ne_zero (by simpa using List.mem_takeWhile_imp hu), ?_⟩
    rw [← hunits] at hu
    obtain ⟨j, -, rfl⟩ := List.mem_map.1 ((List.takeWhile_sublist _).subset hu)
    exact le_lt b _ 2
  refine ⟨?_, Utf16.decode_ne_zero (by decide) hbound⟩
  calc (Utf16.encode ((Utf16.decode (units.takeWhile (· ≠ 0))).map fun c ↦ c.getD '?')).length
      ≤ (units.takeWhile (· ≠ 0)).length :=
        Utf16.encode_decode_length (by decide) fun u hu ↦ (hbound u hu).2
    _ ≤ units.length := (List.takeWhile_sublist _).length_le
    _ = gptLabelUnits := hlen

theorem slotEntry_kept {a i : ℕ} (h : slotEntry b a i = some e) : 0 < e.sectors ∧ e.Kept .gpt := by
  rw [slotEntry] at h
  split_ifs at h with hnone
  cases h
  exact ⟨Nat.succ_pos _, ⟨_, rfl, (not_or.1 hnone).1⟩, labelAt_kept b a, le_lt b _ 8, rfl⟩

theorem mbrSlot_kept {i : ℕ} (h : mbrSlot b i = some e) : 0 < e.sectors ∧ e.Kept .mbr := by
  rw [mbrSlot] at h
  split_ifs at h with hused
  cases h
  exact ⟨hused.2.2, ⟨_, rfl, hused.1, hused.2.1⟩, rfl, rfl, rfl, le_lt b _ 4, le_lt b _ 4⟩

/-- The entries found in numbered slots. -/
theorem entriesKept_filterMap {f : ℕ → Option Entry}
    (hentries : t.entries = (List.range t.slots).filterMap f)
    (hindex : ∀ i e, f i = some e → e.index = i + 1)
    (hf : ∀ i e, f i = some e → 0 < e.sectors ∧ e.Kept t.scheme)
    (hends : ∀ e ∈ t.entries, e.first + e.sectors < 2 ^ 64) : t.EntriesKept := by
  have hmem : ∀ e ∈ t.entries, ∃ i < t.slots, f i = some e := by
    intro e he
    rw [hentries] at he
    obtain ⟨i, hi, hslot⟩ := List.mem_filterMap.1 he
    exact ⟨i, List.mem_range.1 hi, hslot⟩
  refine ⟨hentries ▸ sorted_filterMap hindex _, fun e he ↦ ?_, fun e he ↦ ?_, fun e he ↦ ?_⟩
  · obtain ⟨i, hi, hslot⟩ := hmem e he
    have := hindex i e hslot
    omega
  · obtain ⟨i, hi, hslot⟩ := hmem e he
    exact ⟨(hf i e hslot).1, hends e he⟩
  · obtain ⟨i, hi, hslot⟩ := hmem e he
    exact (hf i e hslot).2

namespace Disk

variable {d : Disk} {headN tailN : ℕ} {t : Table}

theorem gptTable_kept {lba : ℕ} {boot : Vector UInt8 446} {es : List Entry}
    (hpower : 2 ^ d.ss.log2 = d.ss) (hss : 512 ≤ d.ss) (htotal : d.total + 2048 ≤ 2 ^ 64)
    (hgpt : d.GptAt lba)
    (hes : gptSlots d.byte (d.entriesAt lba) (d.header lba).size (List.range (d.header lba).count) =
      .ok es) (hends : ∀ e ∈ es, e.first + e.sectors < 2 ^ 64) : (d.gptTable lba boot es).Kept := by
  obtain ⟨-, hbounds, hbefore, hafter, -, -⟩ := hgpt
  exact ⟨hpower, hss, htotal, ⟨hbounds.2.2.2.2.2, hbounds.1, hbefore, hafter⟩,
    entriesKept_filterMap (gptSlots_of_ok hes) (fun _ _ ↦ slotEntry_index)
      (fun _ _ ↦ slotEntry_kept) hends⟩

/-- **A table that was read**, unless one of its partitions ends with the largest sector number. -/
theorem parsed_kept (hr : d.Reads headN tailN) (htotal : d.total + 2048 ≤ 2 ^ 64)
    (hparsed : d.parsed headN tailN = .ok (some t))
    (hends : ∀ e ∈ t.entries, e.first + e.sectors < 2 ^ 64) : t.Kept := by
  have hsigned : Signed (d.sectorsFrom 0 headN) d.ss := by
    by_contra hnot
    rw [parsed, parse, if_pos hnot] at hparsed
    cases hparsed
  rw [parsed_eq hr hsigned htotal] at hparsed
  obtain ⟨hpower, hss, hlen, -⟩ := hsigned
  split_ifs at hparsed with hprimary hbackup
  · cases hes : gptSlots d.byte (d.entriesAt 1) (d.header 1).size
        (List.range (d.header 1).count) with
    | error e =>
      rw [hes] at hparsed
      cases hparsed
    | ok es =>
      rw [hes] at hparsed
      cases hparsed
      exact gptTable_kept hpower hss htotal hprimary.2.1 hes hends
  · cases hes : gptSlots d.byte (d.entriesAt (d.total - 1)) (d.header (d.total - 1)).size
        (List.range (d.header (d.total - 1)).count) with
    | error e =>
      rw [hes] at hparsed
      cases hparsed
    | ok es =>
      rw [hes] at hparsed
      cases hparsed
      have hkept : (d.gptTable (d.total - 1) d.bootBytes es).Kept :=
        gptTable_kept hpower hss htotal hbackup.2.1 hes hends
      exact ⟨hkept.power, hkept.sector, hkept.size, hkept.placed, hkept.entries.sorted,
        hkept.entries.index, hkept.entries.ends, hkept.entries.fields⟩
  · cases hparsed
    have hhead := hr.head_le
    have htwo : 2 ≤ headN := Nat.le_of_mul_le_mul_right hlen (by omega)
    refine ⟨hpower, hss, htotal, ⟨rfl, rfl, rfl, rfl, ?_⟩, entriesKept_filterMap rfl
      (fun _ _ ↦ mbrSlot_index) (fun _ _ ↦ mbrSlot_kept) hends⟩
    show 2 ≤ d.total
    omega

end Disk
end OxideBSD.Part
