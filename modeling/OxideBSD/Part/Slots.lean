import OxideBSD.Part.Kept

/-!
# The fields of written tables

What `write` puts into sector 0 and into the array of entries is read back slot by slot.

* `Table.fields0` and `Table.array` are the fields of sector 0 and of the array, and none overlaps
  another (`fields0_apart`, `array_apart`).
* `slots_array`: the slots of the array are the table's entries, and `slots_sector0` the same for
  the entries of an MBR.
-/

set_option autoImplicit false

namespace OxideBSD.Part

open Bytes Res

/-! ## Numbered slots -/

section Slots

variable {es : List Entry} {f : Entry → List (ℕ × List UInt8)} {base w : ℕ}

instance : Std.Antisymm fun a b : Entry ↦ a.index < b.index := ⟨fun _ _ h h' ↦ by omega⟩

instance : Std.Irrefl fun a b : Entry ↦ a.index < b.index := ⟨fun _ h ↦ by omega⟩

/-- Slots that hold the entries of these numbers, and nothing else, are these entries. -/
theorem filterMap_slots {g : ℕ → Option Entry} {n : ℕ}
    (hsorted : es.Pairwise fun a b ↦ a.index < b.index)
    (hrange : ∀ e ∈ es, 1 ≤ e.index ∧ e.index ≤ n) (hindex : ∀ i e, g i = some e → e.index = i + 1)
    (hsome : ∀ e ∈ es, g (e.index - 1) = some e)
    (hnone : ∀ i < n, (∀ e ∈ es, e.index ≠ i + 1) → g i = none) :
    (List.range n).filterMap g = es := by
  refine (sorted_filterMap hindex n).eq_of_mem_iff hsorted fun x ↦ ?_
  rw [List.mem_filterMap]
  constructor
  · rintro ⟨i, hi, hx⟩
    by_cases hfree : ∀ e ∈ es, e.index ≠ i + 1
    · rw [hnone i (List.mem_range.1 hi) hfree] at hx
      cases hx
    · push Not at hfree
      obtain ⟨e, he, heq⟩ := hfree
      have hslot := hsome e he
      rw [heq, Nat.add_sub_cancel, hx] at hslot
      exact Option.some.inj hslot ▸ he
  · intro hx
    have := hrange x hx
    exact ⟨x.index - 1, List.mem_range.2 (by omega), hsome x hx⟩

/-- Fields in slots of their own do not overlap. -/
theorem apart_slots (hsorted : es.Pairwise fun a b ↦ a.index < b.index)
    (hrange : ∀ e ∈ es, 1 ≤ e.index)
    (hin : ∀ e ∈ es, ∀ x ∈ f e, base + (e.index - 1) * w ≤ x.1 ∧
      x.1 + x.2.length ≤ base + (e.index - 1) * w + w)
    (hself : ∀ e ∈ es, (f e).Pairwise Apart) : (es.flatMap f).Pairwise Apart := by
  refine List.pairwise_flatMap.2 ⟨hself, ?_⟩
  refine hsorted.imp_of_mem fun {a b} ha hb hlt x hx y hy ↦ Or.inl ?_
  have hpos := hrange a ha
  have hle : (a.index - 1 + 1) * w ≤ (b.index - 1) * w := Nat.mul_le_mul_right _ (by omega)
  rw [Nat.succ_mul] at hle
  have := (hin a ha x hx).2
  have := (hin b hb y hy).1
  omega

/-- No field is in the slot of a number no entry has. -/
theorem outside_slot (hrange : ∀ e ∈ es, 1 ≤ e.index)
    (hin : ∀ e ∈ es, ∀ x ∈ f e, base + (e.index - 1) * w ≤ x.1 ∧
      x.1 + x.2.length ≤ base + (e.index - 1) * w + w)
    {i k : ℕ} (hfree : ∀ e ∈ es, e.index ≠ i + 1) (hk : k < w) :
    ∀ x ∈ es.flatMap f, base + i * w + k < x.1 ∨ x.1 + x.2.length ≤ base + i * w + k := by
  intro x hx
  obtain ⟨e, he, hx⟩ := List.mem_flatMap.1 hx
  have hpos := hrange e he
  have hne := hfree e he
  obtain ⟨hlo, hhi⟩ := hin e he x hx
  rcases Nat.lt_or_gt_of_ne (by omega) with hlt | hgt
  · have hle : (e.index - 1 + 1) * w ≤ i * w := Nat.mul_le_mul_right _ (by omega)
    rw [Nat.succ_mul] at hle
    omega
  · have hle : (i + 1) * w ≤ (e.index - 1) * w := Nat.mul_le_mul_right _ (by omega)
    rw [Nat.succ_mul] at hle
    omega

end Slots

/-! ## GUIDs and names -/

section Fields

variable {b : ℕ → UInt8} {fs : List (ℕ × List UInt8)} {a : ℕ}

theorem guidAt_puts (hfs : fs.Pairwise Apart) {g : Guid} (hmem : (a, g.toList) ∈ fs) :
    guidAt (puts b fs) a = g := by
  refine Vector.ext fun i hi ↦ ?_
  have hlen : i < g.toList.length := by simpa using hi
  rw [guidAt, Vector.getElem_ofFn]
  rw [puts_of_mem hfs hmem hlen, List.getD_eq_getElem _ 0 hlen, Vector.getElem_toList]

theorem length_units (us : List ℕ) : (us.flatMap (toLe 2)).length = 2 * us.length := by
  induction us with
  | nil => rfl
  | cons u us ih =>
    rw [List.flatMap_cons, List.length_append, length_toLe, List.length_cons]
    omega

theorem getD_units (us : List ℕ) (j : ℕ) :
    (us.flatMap (toLe 2)).getD (2 * j) 0 = UInt8.ofNat (us.getD j 0) ∧
      (us.flatMap (toLe 2)).getD (2 * j + 1) 0 = UInt8.ofNat (us.getD j 0 / 256) := by
  induction us generalizing j with
  | nil => simp
  | cons u us ih =>
    cases j with
    | zero => exact ⟨rfl, rfl⟩
    | succ j =>
      obtain ⟨hlo, hhi⟩ := ih j
      exact ⟨hlo, hhi⟩

/-- A name is read back, if nothing follows it in its slot. -/
theorem units_puts (hfs : fs.Pairwise Apart) {us : List ℕ} (hmem : (a, us.flatMap (toLe 2)) ∈ fs)
    (hbound : ∀ u ∈ us, 0 < u ∧ u < 0x10000) {n : ℕ} (hn : us.length ≤ n)
    (hafter : ∀ i < 2 * n, 2 * us.length ≤ i → puts b fs (a + i) = 0) :
    ((List.range n).map fun j ↦ le (puts b fs) (a + 2 * j) 2).takeWhile (· ≠ 0) = us := by
  have hmap : ((List.range n).map fun j ↦ le (puts b fs) (a + 2 * j) 2) =
      us ++ List.replicate (n - us.length) 0 := by
    refine List.ext_getElem (by simp; omega) fun j hj _ ↦ ?_
    have hjn : j < n := by simpa using hj
    have hle : le (puts b fs) (a + 2 * j) 2 = (puts b fs (a + 2 * j)).toNat +
        256 * (puts b fs (a + (2 * j + 1))).toNat := rfl
    rw [List.getElem_map, List.getElem_range, hle]
    by_cases hju : j < us.length
    · obtain ⟨hlo, hhi⟩ := getD_units us j
      have hlen := length_units us
      rw [puts_of_mem hfs hmem (by omega), puts_of_mem hfs hmem (by omega), hlo, hhi,
        List.getElem_append_left hju, List.getD_eq_getElem _ 0 hju, UInt8.toNat_ofNat',
        UInt8.toNat_ofNat']
      have := (hbound _ (List.getElem_mem hju)).2
      omega
    · rw [hafter _ (by omega) (by omega), hafter _ (by omega) (by omega),
        List.getElem_append_right (by omega), List.getElem_replicate]
      rfl
  rw [hmap, List.takeWhile_append_of_pos fun u hu ↦ by simpa using (hbound u hu).1.ne']
  cases n - us.length <;> simp

end Fields

/-! ## The array of a GPT -/

/-- The fields of an entry in the array. -/
def Entry.gptPart (e : Entry) : List (ℕ × List UInt8) :=
  match e.code with
  | .gpt g => e.gptFields g (e.first + e.sectors)
  | .mbr _ => []

theorem gptFields_in {e : Entry} (hlabel : LabelKept e.label) (g : Guid) (past : ℕ) :
    ∀ x ∈ e.gptFields g past, 0 + (e.index - 1) * gptEntrySize ≤ x.1 ∧
      x.1 + x.2.length ≤ 0 + (e.index - 1) * gptEntrySize + gptEntrySize := by
  have hlen := hlabel.1
  have hunits := length_units ((Utf16.encode e.label).take gptLabelUnits)
  rw [List.length_take] at hunits
  simp only [Entry.gptFields, List.mem_cons, List.not_mem_nil, or_false, forall_eq_or_imp,
    forall_eq,
    Vector.length_toList, length_toLe, hunits]
  simp only [gptEntrySize, gptLabelUnits] at hlen ⊢
  omega

theorem gptFields_apart (e : Entry) (g : Guid) (past : ℕ) :
    (e.gptFields g past).Pairwise Apart := by
  simp only [Entry.gptFields, List.pairwise_cons, List.mem_cons, List.not_mem_nil,
    forall_eq_or_imp, Apart, Vector.length_toList, length_toLe, false_imp_iff,
    implies_true, List.Pairwise.nil, and_true]
  omega

namespace Table

variable {t : Table}

/-- The fields of the array of entries. -/
def array (t : Table) : List (ℕ × List UInt8) := t.entries.flatMap Entry.gptPart

theorem gptPart_eq {e : Entry} {g : Guid} (hcode : e.code = .gpt g) :
    e.gptPart = e.gptFields g (e.first + e.sectors) := by
  rw [Entry.gptPart, hcode]

theorem arrayFields_eq (h : t.EntriesKept) : arrayFields t.entries = .ok t.array := by
  have hends := fun e he ↦ (h.ends e he).2
  rw [array]
  generalize t.entries = es at hends
  induction es with
  | nil => rfl
  | cons e es ih =>
    have hrest := ih fun o ho ↦ hends o (List.mem_cons_of_mem e ho)
    rw [arrayFields, List.flatMap_cons, Entry.gptPart, hrest]
    cases hcode : e.code with
    | mbr b => rfl
    | gpt g =>
      have hpast : e.past = .ok (e.first + e.sectors) := if_pos (hends e List.mem_cons_self)
      simp only [hpast]
      rfl

theorem gptPart_in (h : t.EntriesKept) (hgpt : t.scheme = .gpt) :
    ∀ e ∈ t.entries, ∀ x ∈ e.gptPart, 0 + (e.index - 1) * gptEntrySize ≤ x.1 ∧
      x.1 + x.2.length ≤ 0 + (e.index - 1) * gptEntrySize + gptEntrySize := by
  intro e he
  obtain ⟨⟨g, hcode, -⟩, hlabel, -⟩ := hgpt ▸ h.fields e he
  rw [gptPart_eq hcode]
  exact gptFields_in hlabel g _

theorem array_apart (h : t.EntriesKept) (hgpt : t.scheme = .gpt) :
    t.array.Pairwise Bytes.Apart := by
  refine apart_slots h.sorted (fun e he ↦ (h.index e he).1) (gptPart_in h hgpt) fun e he ↦ ?_
  obtain ⟨⟨g, hcode, -⟩, -⟩ := hgpt ▸ h.fields e he
  rw [gptPart_eq hcode]
  exact gptFields_apart e g _

/-- The name of an entry in the array. -/
theorem labelAt_array (h : t.EntriesKept) (hgpt : t.scheme = .gpt) {e : Entry} (he : e ∈ t.entries)
    {g : Guid} (hcode : e.code = .gpt g) :
    labelAt (puts zeros t.array) ((e.index - 1) * gptEntrySize) = e.label := by
  have hlabel : LabelKept e.label := (hgpt ▸ h.fields e he : Entry.Kept .gpt e).2.1
  have htake : (Utf16.encode e.label).take gptLabelUnits = Utf16.encode e.label :=
    List.take_of_length_le hlabel.1
  have hmem :
      ((e.index - 1) * gptEntrySize + 56, (Utf16.encode e.label).flatMap (toLe 2)) ∈ t.array := by
    refine List.mem_flatMap.2 ⟨e, he, ?_⟩
    rw [gptPart_eq hcode, Entry.gptFields, htake]
    simp
  have hbound : ∀ u ∈ Utf16.encode e.label, 0 < u ∧ u < 0x10000 := by
    intro u hu
    obtain ⟨c, hc, hu⟩ := List.mem_flatMap.1 hu
    exact Utf16.units_bounds (hlabel.2 c hc) u hu
  -- The rest of the slot stays zero: the fields of this entry end before it, the others are in
  -- slots of their own.
  have hafter : ∀ i < 2 * gptLabelUnits, 2 * (Utf16.encode e.label).length ≤ i →
      puts zeros t.array ((e.index - 1) * gptEntrySize + 56 + i) = 0 := by
    intro i hi hle
    refine puts_of_outside fun x hx ↦ ?_
    obtain ⟨o, ho, hx⟩ := List.mem_flatMap.1 hx
    by_cases heq : o.index = e.index
    · have hnodup : (t.entries.map Entry.index).Nodup :=
        List.pairwise_map.2 (h.sorted.imp Nat.ne_of_lt)
      obtain rfl := List.inj_on_of_nodup_map hnodup ho he heq
      rw [gptPart_eq hcode, Entry.gptFields, htake] at hx
      simp only [List.mem_cons, List.not_mem_nil, or_false] at hx
      rcases hx with rfl | rfl | rfl | rfl | rfl | rfl <;>
        simp only [Vector.length_toList, length_toLe, length_units] <;> omega
    · have hpos := (h.index o ho).1
      have hpos' := (h.index e he).1
      obtain ⟨hlo, hhi⟩ := gptPart_in h hgpt o ho x hx
      simp only [gptEntrySize, gptLabelUnits] at hi hlo hhi ⊢
      omega
  have hunits := units_puts (array_apart h hgpt) hmem hbound hlabel.1 hafter
  rw [labelAt, hunits, Utf16.decode_encode, List.map_map]
  exact List.map_id _

/-- **An entry is read back from its slot.** -/
theorem slotEntry_array (h : t.EntriesKept) (hgpt : t.scheme = .gpt) {e : Entry}
    (he : e ∈ t.entries) :
    slotEntry (puts zeros t.array) ((e.index - 1) * gptEntrySize) (e.index - 1) = some e := by
  have hfs := array_apart h hgpt
  obtain ⟨⟨g, hcode, hg⟩, -, hattr, hactive⟩ := hgpt ▸ h.fields e he
  obtain ⟨hpos, hend⟩ := h.ends e he
  have hindex := (h.index e he).1
  have hmem {x : ℕ × List UInt8} (hx : x ∈ e.gptFields g (e.first + e.sectors)) : x ∈ t.array :=
    List.mem_flatMap.2 ⟨e, he, gptPart_eq hcode ▸ hx⟩
  have hlabel := labelAt_array h hgpt he hcode
  rw [Entry.gptFields] at hmem
  generalize (e.index - 1) * gptEntrySize = a at hmem hlabel ⊢
  have htype : guidAt (puts zeros t.array) a = g := guidAt_puts hfs (hmem (by simp))
  have hguid : guidAt (puts zeros t.array) (a + 16) = e.guid := guidAt_puts hfs (hmem (by simp))
  have hfirst : le64 (puts zeros t.array) (a + 32) = e.first :=
    le_puts hfs (hmem (by simp)) (by omega)
  have hlast : le64 (puts zeros t.array) (a + 40) = e.first + e.sectors - 1 :=
    le_puts hfs (hmem (by simp)) (by omega)
  have hattributes : le64 (puts zeros t.array) (a + 48) = e.attributes :=
    le_puts hfs (hmem (by simp)) hattr
  rw [slotEntry, htype, hguid, hfirst, hlast, hattributes, hlabel,
    if_neg (not_or.2 ⟨hg, by omega⟩)]
  have hsectors : e.first + e.sectors - 1 - e.first + 1 = e.sectors := by omega
  rw [hsectors, Nat.sub_add_cancel hindex, ← hcode, ← hactive]

/-- **The slots of the array are the entries.** -/
theorem slots_array (h : t.EntriesKept) (hgpt : t.scheme = .gpt) :
    gptSlots (puts zeros t.array) 0 gptEntrySize (List.range t.slots) = .ok t.entries := by
  have hfilter : ((List.range t.slots).filterMap fun i ↦
      slotEntry (puts zeros t.array) (0 + i * gptEntrySize) i) = t.entries := by
    refine filterMap_slots h.sorted h.index (fun _ _ ↦ slotEntry_index)
      (fun e he ↦ ?_) fun i _ hfree ↦ ?_
    · rw [Nat.zero_add]
      exact slotEntry_array h hgpt he
    · have hzero : guidAt (puts zeros t.array) (0 + i * gptEntrySize) = zeroGuid := by
        refine Vector.ext fun k hk ↦ ?_
        rw [guidAt, Vector.getElem_ofFn, zeroGuid, Vector.getElem_replicate]
        exact puts_of_outside (outside_slot (fun e he ↦ (h.index e he).1) (gptPart_in h hgpt) hfree
          (by rw [gptEntrySize]; omega))
      rw [slotEntry, if_pos (Or.inl hzero)]
  rw [gptSlots_eq, hfilter]
  intro i hi e he
  have hmem : e ∈ t.entries := hfilter ▸ List.mem_filterMap.2 ⟨i, hi, he⟩
  have := (h.ends e hmem).2
  omega

/-! ## Sector 0 -/

/-- The fields of sector 0. -/
def fields0 (t : Table) : List (ℕ × List UInt8) :=
  (0, t.boot.toList) :: (510, [0x55, 0xAA]) ::
    match t.scheme with
    | .mbr => t.entries.flatMap Entry.mbrFields
    | .gpt => mbrFields 0 mbrGptProtective 1 (t.diskSectors - 1) false

theorem mbrFields_in (i : ℕ) (kind : UInt8) (first sectors : ℕ) (active : Bool) :
    ∀ x ∈ mbrFields i kind first sectors active, 446 + i * 16 ≤ x.1 ∧
      x.1 + x.2.length ≤ 446 + i * 16 + 16 := by
  simp only [mbrFields, List.mem_cons, List.not_mem_nil, or_false, forall_eq_or_imp, forall_eq,
    length_toLe, List.length_cons, List.length_nil]
  omega

theorem mbrFields_apart (i : ℕ) (kind : UInt8) (first sectors : ℕ) (active : Bool) :
    (mbrFields i kind first sectors active).Pairwise Bytes.Apart := by
  simp only [mbrFields, List.pairwise_cons, List.mem_cons, List.not_mem_nil,
    forall_eq_or_imp, Bytes.Apart, length_toLe, List.length_cons, List.length_nil,
    false_imp_iff, implies_true, List.Pairwise.nil, and_true]
  omega

theorem entry_mbrFields {e : Entry} {b : UInt8} (hcode : e.code = .mbr b) :
    e.mbrFields = mbrFields (e.index - 1) b e.first e.sectors e.active := by
  rw [Entry.mbrFields, hcode]

theorem entryFields_in (h : t.EntriesKept) (hmbr : t.scheme = .mbr) :
    ∀ e ∈ t.entries, ∀ x ∈ e.mbrFields, 446 + (e.index - 1) * 16 ≤ x.1 ∧
      x.1 + x.2.length ≤ 446 + (e.index - 1) * 16 + 16 := by
  intro e he
  obtain ⟨⟨b, hcode, -⟩, -⟩ := hmbr ▸ h.fields e he
  rw [entry_mbrFields hcode]
  exact mbrFields_in _ _ _ _ _

/-- The boot code and the signature are around the entries. -/
theorem fields0_apart (h : t.Kept) : t.fields0.Pairwise Bytes.Apart := by
  have hcons {fs : List (ℕ × List UInt8)} (hfs : fs.Pairwise Bytes.Apart)
      (hin : ∀ x ∈ fs, 446 ≤ x.1 ∧ x.1 + x.2.length ≤ 510) :
      ((0, t.boot.toList) :: (510, [0x55, 0xAA]) :: fs).Pairwise Bytes.Apart := by
    refine List.pairwise_cons.2 ⟨?_, List.pairwise_cons.2 ⟨?_, hfs⟩⟩
    · intro x hx
      rcases List.mem_cons.1 hx with rfl | hx
      · simp [Bytes.Apart]
      · have := hin x hx
        simp only [Bytes.Apart, Vector.length_toList]
        omega
    · intro x hx
      have := hin x hx
      simp only [Bytes.Apart]
      omega
  have hplaced := h.placed
  rw [fields0]
  rcases hs : t.scheme with _ | _
  · refine hcons (mbrFields_apart _ _ _ _ _) fun x hx ↦ ?_
    have := mbrFields_in _ _ _ _ _ x hx
    omega
  · rw [Placed, hs] at hplaced
    refine hcons ?_ fun x hx ↦ ?_
    · refine apart_slots h.entries.sorted (fun e he ↦ (h.entries.index e he).1)
        (entryFields_in h.entries hs) fun e he ↦ ?_
      obtain ⟨⟨b, hcode, -⟩, -⟩ := hs ▸ h.entries.fields e he
      rw [entry_mbrFields hcode]
      exact mbrFields_apart _ _ _ _ _
    · obtain ⟨e, he, hx⟩ := List.mem_flatMap.1 hx
      have hindex := h.entries.index e he
      have hin := entryFields_in h.entries hs e he x hx
      omega

theorem byte_puts {b : ℕ → UInt8} {fs : List (ℕ × List UInt8)} {a : ℕ} {x : UInt8}
    (hfs : fs.Pairwise Bytes.Apart) (hmem : (a, [x]) ∈ fs) : puts b fs a = x :=
  puts_of_mem (i := 0) hfs hmem Nat.one_pos

/-- A byte of an entry's place that no entry has is zero. -/
theorem sector0_free (h : t.Kept) (hmbr : t.scheme = .mbr) {i : ℕ} (hi : i < 4)
    (hfree : ∀ e ∈ t.entries, e.index ≠ i + 1) :
    puts zeros t.fields0 (446 + i * 16 + 4) = 0 := by
  refine puts_of_outside fun x hx ↦ ?_
  rw [fields0, hmbr] at hx
  rcases List.mem_cons.1 hx with rfl | hx
  · simp only [Vector.length_toList]
    omega
  rcases List.mem_cons.1 hx with rfl | hx
  · simp only
    omega
  · exact outside_slot (fun e he ↦ (h.entries.index e he).1) (entryFields_in h.entries hmbr) hfree
      (by omega) x hx

/-- **An entry is read back from the MBR.** -/
theorem mbrSlot_sector0 (h : t.Kept) (hmbr : t.scheme = .mbr) {e : Entry} (he : e ∈ t.entries) :
    mbrSlot (puts zeros t.fields0) (e.index - 1) = some e := by
  have hfs := fields0_apart h
  obtain ⟨⟨b, hcode, hzero, hprot⟩, hlabel, hguid, hattr, hfirst, hsectors⟩ :=
    hmbr ▸ h.entries.fields e he
  have hpos := (h.entries.ends e he).1
  have hindex := (h.entries.index e he).1
  have hmem {x : ℕ × List UInt8} (hx : x ∈ mbrFields (e.index - 1) b e.first e.sectors e.active) :
      x ∈ t.fields0 := by
    rw [fields0, hmbr]
    exact List.mem_cons_of_mem _ (List.mem_cons_of_mem _
      (List.mem_flatMap.2 ⟨e, he, entry_mbrFields hcode ▸ hx⟩))
  rw [mbrFields] at hmem
  rw [mbrSlot]
  generalize 446 + (e.index - 1) * 16 = a at hmem ⊢
  have hkind : puts zeros t.fields0 (a + 4) = b := byte_puts hfs (hmem (by simp))
  have hflag : puts zeros t.fields0 a = if e.active then 0x80 else 0 :=
    byte_puts hfs (hmem (by simp))
  have hat : le32 (puts zeros t.fields0) (a + 8) = min e.first (2 ^ 32 - 1) :=
    le_puts hfs (hmem (by simp)) (by omega)
  have hlen : le32 (puts zeros t.fields0) (a + 12) = min e.sectors (2 ^ 32 - 1) :=
    le_puts hfs (hmem (by simp)) (by omega)
  have hactive : decide (puts zeros t.fields0 a = 0x80) = e.active := by
    rw [hflag]
    cases e.active <;> decide
  rw [Nat.min_eq_left (by omega)] at hat hlen
  rw [hkind, hat, hlen, hactive, if_pos ⟨hzero, hprot, hpos⟩, Nat.sub_add_cancel hindex, ← hcode,
    ← hlabel, ← hguid, ← hattr]

/-- **The entries of the MBR are the table's.** -/
theorem slots_sector0 (h : t.Kept) (hmbr : t.scheme = .mbr) :
    (List.range 4).filterMap (mbrSlot (puts zeros t.fields0)) = t.entries := by
  have hplaced := h.placed
  rw [Placed, hmbr] at hplaced
  refine filterMap_slots h.entries.sorted
    (fun e he ↦ hplaced.1 ▸ h.entries.index e he) (fun _ _ ↦ mbrSlot_index)
    (fun e he ↦ mbrSlot_sector0 h hmbr he) fun i hi hfree ↦ ?_
  rw [mbrSlot, if_neg fun hused ↦ hused.1 (sector0_free h hmbr hi hfree)]

/-- A table of an MBR has no protective entry, and one of a GPT has. -/
theorem protective_sector0 (h : t.Kept) :
    HasProtective (puts zeros t.fields0) ↔ t.scheme = .gpt := by
  have hfs := fields0_apart h
  rcases hs : t.scheme with _ | _
  · refine iff_of_true ⟨0, by omega, byte_puts hfs ?_⟩ rfl
    rw [fields0, hs]
    simp [mbrFields]
  · refine iff_of_false (fun ⟨i, hi, hprot⟩ ↦ ?_) nofun
    by_cases hfree : ∀ e ∈ t.entries, e.index ≠ i + 1
    · rw [sector0_free h hs hi hfree] at hprot
      cases hprot
    · push Not at hfree
      obtain ⟨e, he, heq⟩ := hfree
      have hslot := mbrSlot_sector0 h hs he
      rw [heq, mbrSlot] at hslot
      split_ifs at hslot with hused
      exact hused.2.1 hprot

end Table
end OxideBSD.Part
