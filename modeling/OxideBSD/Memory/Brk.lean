import OxideBSD.Lib.Machine

/-!
# The program break

`do_brk` over the map of an address space, among mappings made and taken away elsewhere and faults.

* `OneSegment` is what is expected of the break.
* A lower break is only stored: the map and the page tables keep their extent, and growing from the
  heap's start overlaps what is still there (`lowered_not_oneSegment`).
* `Inv.grown`: a growth gives the map the heap's entry up to the new end, whether it moves the end
  or makes the entry.  **`run_oneSegment`**: the break is one segment in every run in which no call
  lowers it by a page.
-/

set_option autoImplicit false

namespace OxideBSD.Brk

open Function Option

/-! ## The map -/

/-- `VmKind`, without the file pages. -/
inductive VmKind
  | anon | file | phys | shm | stack | heap | text | kernel
  deriving DecidableEq

/-- `VmEntry`, with the page after its last one. -/
structure VmEntry where
  stop : ℕ
  prot : UInt8
  shared : Bool
  kind : VmKind

/-- `VmMap` by page: what `lookup` finds, the first page of an entry and the entry.  No page is in
two entries. -/
abbrev VmMap := ℕ → Option (ℕ × VmEntry)

/-- Some page from `start` to `stop` is in an entry that `f` holds of. -/
def touches (m : VmMap) (start stop : ℕ) (f : VmEntry → Bool) : Bool :=
  (List.range' start (stop - start)).any fun p ↦ (m p).any (f ·.2)

def overlaps (m : VmMap) (start stop : ℕ) : Bool := touches m start stop fun _ ↦ true

/-- `none` stands for the errors, which callers do not tell apart. -/
def insert (m : VmMap) (start : ℕ) (e : VmEntry) : Option VmMap :=
  if e.stop ≤ start ∨ overlaps m start e.stop then none
  else some fun p ↦ if start ≤ p ∧ p < e.stop then some (start, e) else m p

def remove (m : VmMap) (start stop : ℕ) : Option VmMap :=
  if stop ≤ start ∨ touches m start stop (·.kind = .kernel) then none
  else some fun p ↦
    if start ≤ p ∧ p < stop then none
    -- What is left of an entry on either side is an entry.
    else if p < start then (m p).map fun x ↦ (x.1, { x.2 with stop := min x.2.stop start })
    else (m p).map fun x ↦ (max x.1 stop, x.2)

def setEnd (m : VmMap) (start newEnd : ℕ) : Option VmMap :=
  ((m start).filter (·.1 = start)).bind fun (_, e) ↦
    if newEnd < start ∨ newEnd > e.stop ∧ overlaps m e.stop newEnd then none
    else some fun p ↦
      if start ≤ p ∧ p < newEnd then some (start, { e with stop := newEnd })
      else if start ≤ p ∧ p < e.stop then none else m p

/-! ## The calls -/

/-- An address space: its map, the break and the image's end, and the contents of the pages that
have a leaf in the page tables (0 is zeros). -/
structure St where
  map : VmMap
  brk : ℕ
  brkBase : ℕ
  leaves : ℕ → Option ℕ

/-- `RLIMIT_DATA`, and what `check_as` answers. -/
structure Limits where
  data : ℕ
  as : Bool

/-- The page an address is rounded up to. -/
def pages (addr : ℕ) : ℕ := (addr + 4095) / 4096

/-- `BRK_REGION_CEILING`, and `PIE_BRK_CEILING` from `PIE_ASLR_BASE` on. -/
def ceiling (brk : ℕ) : ℕ := if brk ≥ 0x300000000000 then 0x400000000000 else 0x20000000

def vmMinUser : ℕ := 0x1000

def heapEntry (stop : ℕ) : VmEntry := ⟨stop, 3, false, .heap⟩

/-- What the heap has at the page. -/
def St.heap (s : St) (p : ℕ) : Option (ℕ × VmEntry) := (s.map p).filter (·.2.kind = .heap)

/-- The map with the heap grown to `newEnd`. -/
def St.grown (s : St) (newEnd : ℕ) : Option VmMap :=
  match s.heap (pages s.brk - 1) with
  | some (start, _) => setEnd s.map start newEnd
  | none => insert s.map (max (pages s.brk) (pages s.brkBase)) (heapEntry newEnd)

/-- `do_brk`: what it returns and the address space after it, `none` for `ENOMEM`. -/
def St.doBrk (s : St) (addr : ℕ) (l : Limits) : Option (ℕ × St) :=
  if addr = 0 then some (s.brk, s)
  else if addr ≤ s.brk then some (addr, { s with brk := addr })
  else if addr > ceiling s.brk ∨ s.brk < vmMinUser ∨ addr - s.brkBase > l.data then none
  else if pages addr > pages s.brk then
    if l.as then (s.grown (pages addr)).map fun m ↦ (addr, { s with map := m, brk := addr })
    else none
  else some (addr, { s with brk := addr })

def St.tryFillAnon (s : St) (p : ℕ) (write exec frame : Bool) : Option St :=
  (s.map p).bind fun (_, e) ↦
    if (e.kind ≠ .anon ∧ e.kind ≠ .heap) ∨ e.shared then none
    else if e.prot &&& (if exec then 4 else if write then 2 else 1) = 0 then none
    else if (s.leaves p).isSome ∨ ¬ frame then none
    else some { s with leaves := update s.leaves p (some 0) }

/-- A call of `brk`; a mapping, or a segment of the image, entered in the map; one taken out with
its leaves; a fault of anonymous memory; and a page's new contents, written by the program or made
by the fault of another kind of entry. -/
inductive Event
  | brk (addr : ℕ) (l : Limits)
  | insert (start : ℕ) (e : VmEntry)
  | munmap (start stop : ℕ)
  | fault (p : ℕ) (write exec frame : Bool)
  | store (p v : ℕ)

def step (s : St) : Event → Option St
  | .brk addr l => some ((s.doBrk addr l).elim s Prod.snd)
  | .insert start e => if e.kind = .heap then none else
      some ((insert s.map start e).elim s fun m ↦ { s with map := m })
  | .munmap start stop => some ((remove s.map start stop).elim s fun m ↦ { s with
      map := m, leaves := fun p ↦ if start ≤ p ∧ p < stop then none else s.leaves p })
  | .fault p write exec frame => s.tryFillAnon p write exec frame
  | .store p v =>
    if (s.leaves p).isSome ∨ (s.map p).any fun x ↦ x.2.kind ≠ .anon ∧ x.2.kind ≠ .heap then
      some { s with leaves := update s.leaves p (some v) }
    else none

/-- After an exec with the image's end at `brk`. -/
def St.exec (brk : ℕ) : St := ⟨fun _ ↦ none, brk, brk, fun _ ↦ none⟩

/-- **The break is one segment.** -/
structure OneSegment (s : St) : Prop where
  /-- The heap's pages are those from its start to the break. -/
  heap : ∀ p, (s.heap p).isSome ↔ pages s.brkBase ≤ p ∧ p < pages s.brk
  /-- Pages in no entry are not accessible. -/
  bare : ∀ p, s.map p = none → s.leaves p = none
  /-- A call within the limits succeeds if the pages it needs are free or the heap's. -/
  succeeds : ∀ addr l, s.brkBase ≤ addr → addr ≤ ceiling s.brk → vmMinUser ≤ s.brk →
    addr - s.brkBase ≤ l.data → l.as = true →
    (∀ p, pages s.brkBase ≤ p → p < pages addr → s.map p = none ∨ (s.heap p).isSome) →
    (s.doBrk addr l).isSome
  /-- The pages a call exposes have no contents yet: the first touch makes them zeros. -/
  zeros : ∀ addr l r s', s.doBrk addr l = some (r, s') →
    ∀ p, pages s.brk ≤ p → p < pages s'.brk → s'.leaves p = none

/-! ## The heap's entry -/

variable {m : VmMap} {p start stop n : ℕ} {s s' : St}

theorem overlaps_eq_false_iff :
    overlaps m start stop = false ↔ ∀ p, start ≤ p → p < stop → m p = none := by
  simp only [overlaps, touches, List.any_eq_false, List.mem_range'_1]
  constructor
  · intro h p hstart hstop
    have := h p ⟨hstart, by omega⟩
    cases hp : m p <;> simp_all
  · intro h p hp
    simp [h p hp.1 (by omega)]

/-- The heap's entry is the one from its start to the break, and leaves are of pages in the map. -/
structure Inv (s : St) : Prop where
  le : pages s.brkBase ≤ pages s.brk
  heap : ∀ p, s.heap p = if pages s.brkBase ≤ p ∧ p < pages s.brk then
    some (pages s.brkBase, heapEntry (pages s.brk)) else none
  bare : ∀ p, s.map p = none → s.leaves p = none

/-- **A growth of the heap**: it is refused if it meets another entry, and otherwise the heap's
entry goes up to the new end. -/
theorem Inv.grown (h : Inv s) (hlt : pages s.brk < n) : s.grown n =
    if overlaps s.map (pages s.brk) n then none
    else some fun p ↦ if pages s.brkBase ≤ p ∧ p < n then some (pages s.brkBase, heapEntry n)
      else s.map p := by
  obtain hpages | hpages := Nat.lt_or_eq_of_le h.le
  · -- The page below the break is the heap's: its entry's end moves.
    have hbelow := (h.heap (pages s.brk - 1)).trans (if_pos (by omega))
    have hstart := (h.heap (pages s.brkBase)).trans (if_pos (by omega))
    simp only [St.grown, hbelow, setEnd, (filter_eq_some_iff.1 hstart).1, heapEntry,
      filter_some, decide_true, if_true, bind_some, hlt, true_and]
    rw [if_congr (or_iff_right (by omega)) rfl rfl]
    congr 2
    funext p
    split_ifs <;> first | rfl | omega
  · -- The heap has no pages: the entry is made.
    rw [St.grown, (h.heap _).trans (if_neg (by omega)), hpages, Nat.max_self]
    exact if_congr (or_iff_right (Nat.not_le.2 hlt)) rfl rfl

theorem Inv.doBrk {addr r : ℕ} {l : Limits} (h : Inv s)
    (hkeep : addr = 0 ∨ pages s.brk ≤ pages addr) (hbrk : s.doBrk addr l = some (r, s')) :
    Inv s' ∧ ∀ p, pages s.brk ≤ p → p < pages s'.brk → s'.leaves p = none := by
  have hle := h.le
  have hstay : pages addr ≤ pages s.brk → addr ≠ 0 →
      Inv { s with brk := addr } ∧ ∀ p, pages s.brk ≤ p → p < pages addr → s.leaves p = none := by
    intro hle hzero
    have heq := Nat.le_antisymm (hkeep.resolve_left hzero) hle
    exact ⟨⟨heq ▸ h.le, heq ▸ h.heap, h.bare⟩, fun p _ _ ↦ by omega⟩
  rw [St.doBrk] at hbrk
  split_ifs at hbrk with hzero hlow hlimit hgrow has
  · cases hbrk
    exact ⟨h, fun p _ _ ↦ by omega⟩
  · cases hbrk
    exact hstay (Nat.div_le_div_right (by omega)) hzero
  · obtain ⟨m, hm, hbrk⟩ := map_eq_some_iff.1 hbrk
    rw [h.grown hgrow] at hm
    obtain ⟨hover, ⟨⟩⟩ := of_ite_left hm nofun
    cases hbrk
    have hfree := overlaps_eq_false_iff.1 (Bool.not_eq_true _ ▸ hover)
    refine ⟨⟨by dsimp only; omega, fun p ↦ ?_, fun p hp ↦ ?_⟩,
      fun p hp hpa ↦ h.bare p (hfree p hp hpa)⟩
    · dsimp only [St.heap]
      split_ifs with hp
      · rfl
      · exact (h.heap p).trans (if_neg (by omega))
    · dsimp only at hp
      split_ifs at hp
      exact h.bare p hp
  · cases hbrk
    exact hstay (Nat.le_of_not_lt hgrow) hzero

/-! ## Every run -/

/-- No call lowers the break by a page, and what is unmapped is not the heap's. -/
def Keeps (s : St) : Event → Prop
  | .brk addr _ => addr = 0 ∨ pages s.brk ≤ pages addr
  | .munmap start stop => ∀ p < stop, start ≤ p → (s.heap p).isNone
  | _ => True

instance (s : St) (e : Event) : Decidable (Keeps s e) := by
  unfold Keeps
  split <;> infer_instance

theorem Inv.munmap (h : Inv s) (hno : ∀ p < stop, start ≤ p → (s.heap p).isNone)
    (hm : remove s.map start stop = some m) : Inv { s with
      map := m, leaves := fun p ↦ if start ≤ p ∧ p < stop then none else s.leaves p } := by
  obtain ⟨hlt, ⟨⟩⟩ := of_ite_left hm nofun
  have hout : ∀ p, start ≤ p → p < stop → ¬ (pages s.brkBase ≤ p ∧ p < pages s.brk) := by
    intro p hp hps hheap
    have := hno p hps hp
    rw [h.heap, if_pos hheap] at this
    cases this
  refine ⟨h.le, fun p ↦ ?_, fun p hp ↦ ?_⟩
  · have hold := h.heap p
    have hat := hout p
    have hfirst := hout start
    have hlast := hout (stop - 1)
    rw [St.heap] at hold ⊢
    by_cases hheap : pages s.brkBase ≤ p ∧ p < pages s.brk
    · rw [if_pos hheap] at hold ⊢
      dsimp only
      rw [(filter_eq_some_iff.1 hold).1, if_neg (by omega)]
      split_ifs
      · simp [heapEntry, Nat.min_eq_left (by omega : pages s.brk ≤ start)]
      · simp [heapEntry, Nat.max_eq_left (by omega : stop ≤ pages s.brkBase)]
    · rw [if_neg hheap, filter_eq_none_iff] at hold ⊢
      intro x hx
      dsimp only at hx
      split_ifs at hx
      all_goals
        obtain ⟨y, hy, rfl⟩ := map_eq_some_iff.1 hx
        exact hold y hy
  · dsimp only at hp ⊢
    split_ifs at hp ⊢
    · rfl
    all_goals exact h.bare p (map_eq_none_iff.1 hp)

theorem Inv.leaf {v : ℕ} (h : Inv s) (hp : s.map p ≠ none) :
    Inv { s with leaves := update s.leaves p (some v) } := by
  refine { h with bare := fun q hq ↦ ?_ }
  have hne : q ≠ p := by
    rintro rfl
    exact hp hq
  exact (update_of_ne hne ..).trans (h.bare q hq)

theorem step_inv {e : Event} (h : Inv s) (he : Keeps s e) (hs : step s e = some s') : Inv s' := by
  cases e with
  | brk addr l =>
    cases hs
    cases hbrk : s.doBrk addr l with
    | none => exact h
    | some rs => exact (h.doBrk he hbrk).1
  | insert start e =>
    obtain ⟨hkind, ⟨⟩⟩ := of_ite_left hs nofun
    cases hins : insert s.map start e with
    | none => exact h
    | some m =>
      obtain ⟨hno, hm⟩ := ite_none_left_eq_some.1 hins
      cases hm
      have hfree := overlaps_eq_false_iff.1 (Bool.not_eq_true _ ▸ (not_or.1 hno).2)
      refine ⟨h.le, fun p ↦ ?_, fun p hp ↦ ?_⟩
      · refine Eq.trans ?_ (h.heap p)
        dsimp only [St.heap, Option.elim]
        split_ifs with hp
        · simp [hfree p hp.1 hp.2, hkind]
        · rfl
      · dsimp only [Option.elim] at hp
        split_ifs at hp
        exact h.bare p hp
  | munmap start stop =>
    cases hs
    cases hm : remove s.map start stop with
    | none => exact h
    | some m => exact h.munmap he hm
  | fault p write exec frame =>
    obtain ⟨⟨_, e⟩, hp, hs⟩ := bind_eq_some_iff.1 hs
    obtain ⟨-, hs⟩ := of_ite_left hs nofun
    obtain ⟨-, hs⟩ := of_ite_left hs nofun
    exact some.inj (of_ite_left hs nofun).2 ▸ h.leaf (by simp [hp])
  | store p v =>
    obtain ⟨hp, hs⟩ := of_ite_right hs nofun
    refine some.inj hs ▸ h.leaf fun hnone ↦ ?_
    simp [hnone, h.bare p hnone] at hp

theorem Inv.oneSegment (h : Inv s) : OneSegment s := by
  have hheap : ∀ p, (s.heap p).isSome ↔ pages s.brkBase ≤ p ∧ p < pages s.brk := by
    intro p
    rw [h.heap]
    split_ifs <;> simp [*]
  refine ⟨hheap, h.bare, fun addr l _ hceil hmin hdata has hneed ↦ ?_,
    fun addr l r s' hbrk p hp hlt ↦ ?_⟩
  · rw [St.doBrk, if_neg (by omega : ¬ (_ ∨ _ ∨ _))]
    split_ifs with hzero hle hgrow
    · rfl
    · rfl
    · have hfree : overlaps s.map (pages s.brk) (pages addr) = false := by
        refine overlaps_eq_false_iff.2 fun p hp hpa ↦ ?_
        refine (hneed p (Nat.le_trans h.le hp) hpa).resolve_right fun hmem ↦ ?_
        exact absurd ((hheap p).1 hmem).2 (Nat.not_lt.2 hp)
      rw [h.grown hgrow, if_neg (by simp [hfree])]
      rfl
    · rfl
  · by_cases hkeep : addr = 0 ∨ pages s.brk ≤ pages addr
    · exact (h.doBrk hkeep hbrk).2 p hp hlt
    · have hle : addr ≤ s.brk := by
        simp only [pages] at hkeep
        omega
      rw [St.doBrk, if_neg (not_or.1 hkeep).1, if_pos hle] at hbrk
      cases hbrk
      exact absurd (Nat.le_trans hp (Nat.le_of_lt hlt)) (not_or.1 hkeep).2

/-- **The break is one segment** in every run in which no call lowers it by a page. -/
theorem run_oneSegment {base : ℕ} {es : List Event}
    (hes : Machine.Meets step Keeps (.exec base) es)
    (hrun : Machine.run step (.exec base) es = some s) : OneSegment s := by
  have hexec : Inv (.exec base) :=
    ⟨Nat.le_refl _, fun p ↦ (if_neg fun hp ↦ Nat.not_le.2 hp.2 hp.1).symm, fun _ _ ↦ rfl⟩
  exact (Machine.run_inv (fun _ _ _ he h ↦ step_inv h he) hexec hes hrun).oneSegment

/-- A heap of two pages above an image of one, its second page touched, and a mapping cut. -/
theorem run_oneSegment_grown : ∃ s, Machine.run step (.exec 0x1800)
      [.insert 1 ⟨2, 5, false, .text⟩, .brk 0x3000 ⟨0x10000, true⟩, .insert 9 ⟨12, 3, false, .anon⟩,
        .brk 0x4000 ⟨0x10000, true⟩, .fault 3 true false true, .munmap 10 11] = some s ∧
    s.leaves 3 = some 0 ∧ OneSegment s :=
  Machine.exists_run_and (by decide +kernel) fun _ hrun ↦ run_oneSegment (by decide +kernel) hrun

/-- A heap of two pages is lowered to its start: its pages stay, with what was stored in them, and
it cannot grow again. -/
theorem lowered_not_oneSegment : ∃ s, Machine.run step (.exec 0x1800)
      [.brk 0x4000 ⟨0x10000, true⟩, .fault 3 true false true, .store 3 7,
        .brk 0x1800 ⟨0x10000, true⟩] = some s ∧
    ((s.heap 3).isSome ∧ s.leaves 3 = some 7 ∧ (s.doBrk 0x2800 ⟨0x10000, true⟩).isNone) ∧
    ¬ OneSegment s := by
  refine Machine.exists_run_of (fun s ↦ ((s.heap 3).isSome ∧ s.leaves 3 = some 7 ∧
    (s.doBrk 0x2800 ⟨0x10000, true⟩).isNone) ∧ s.brk = 0x1800) (by decide +kernel) ?_
  intro s _ ⟨hs, hbrk⟩
  refine ⟨hs, fun h ↦ ?_⟩
  have hlt := ((h.heap 3).1 hs.1).2
  rw [hbrk] at hlt
  exact absurd hlt (by decide)

end OxideBSD.Brk
