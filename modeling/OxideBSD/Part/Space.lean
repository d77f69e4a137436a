import OxideBSD.Part.Disk

/-!
# The space a partition table describes

What `parse`, `add` and `resize` promise about sectors: no arithmetic leaves 64 bits, every entry
lies on the disk, and a partition that is added or resized lies in the usable range, over no other.

* `Table.Inv` is what the calls rely on and keep (`step_inv`): it bounds where entries start and
  end.  `parse` does not check these bounds: they are a condition on the disk (`Disk.Sane`).
* `add_safe` and `resize_safe`: the calls on such a table.
* `parsed_safe`: from every sane disk, through every run of calls.
-/

set_option autoImplicit false

namespace OxideBSD.Part

open Bytes

/-! ## Calls that do not overflow -/

/-- No overflow, and a result, if there is one, has `Q`. -/
def Res.Safe {α : Type} (Q : α → Prop) : Res α → Prop
  | .ok a => Q a
  | .error .overflow => False
  | .error (.refused _) => True

namespace Res

variable {α β : Type} {Q R : α → Prop} {r : Res α} {a : α}

@[simp] theorem safe_ok : Safe Q (.ok a) ↔ Q a := Iff.rfl

@[simp] theorem safe_pure : Safe Q (pure a) ↔ Q a := Iff.rfl

theorem Safe.mono (h : Safe Q r) (hQ : ∀ a, Q a → R a) : Safe R r := by
  match r with
  | .ok a => exact hQ a h
  | .error (.refused _) => trivial

theorem Safe.bind {Q : β → Prop} {f : α → Res β} (h : Safe R r) (hf : ∀ a, R a → Safe Q (f a)) :
    Safe Q (r >>= f) := by
  match r with
  | .ok a => exact hf a h
  | .error (.refused _) => trivial

theorem safe_addU64 {Q : ℕ → Prop} {a b : ℕ} (h : a + b < 2 ^ 64) (hQ : Q (a + b)) :
    Safe Q (addU64 a b) := by
  rw [addU64, if_pos h]
  exact hQ

theorem Safe.of_ok (h : Safe Q r) (ha : r = .ok a) : Q a := by
  rw [ha] at h
  exact h

theorem of_bind_ok {f : α → Res β} {b : β} (h : r >>= f = .ok b) :
    ∃ a, r = .ok a ∧ f a = .ok b := by
  cases r with
  | error e => cases h
  | ok a => exact ⟨a, rfl, h⟩

theorem toOption_eq_some : r.toOption = some a ↔ r = .ok a := by
  cases r <;> simp [Except.toOption]

theorem toOption_map_fst {r : Res (α × β)} :
    r.toOption.map Prod.fst = some a ↔ ∃ b, r = .ok (a, b) := by
  cases r <;> simp [Except.toOption, Prod.ext_iff]

end Res

open Res

namespace Table

variable {t t' : Table} {first len index : ℕ} {e : Entry} {es : List Entry} {pos n : ℕ}
  {want sectors : Option ℕ}

/-! ## The invariant -/

/-- What the arithmetic relies on: the disk ends below `2 ^ 64` by what is added to a sector number,
entries are not empty, end on the disk and start no later than right after the usable range, and
they are in the order of their numbers. -/
structure Inv (t : Table) : Prop where
  size : t.diskSectors + 2048 ≤ 2 ^ 64
  sector : 512 ≤ t.sectorSize
  usable : t.lastUsable < t.diskSectors
  pos : ∀ e ∈ t.entries, 0 < e.sectors
  onDisk : ∀ e ∈ t.entries, e.first + e.sectors ≤ t.diskSectors
  starts : ∀ e ∈ t.entries, e.first ≤ t.lastUsable + 1
  sorted : t.entries.Pairwise fun a b ↦ a.index < b.index

/-- `[first, first + len)` is usable, and no entry but `except`'s touches it. -/
def Clear (t : Table) (first len : ℕ) (except : Option ℕ) : Prop :=
  t.firstUsable ≤ first ∧ first + len ≤ t.lastUsable + 1 ∧
    ∀ e ∈ t.entries, some e.index ≠ except → e.first + e.sectors ≤ first ∨ first + len ≤ e.first

/-- Partition `index` lies in the usable range, over no other. -/
def Apart (t : Table) (index : ℕ) : Prop :=
  ∃ e ∈ t.entries, e.index = index ∧ t.Clear e.first e.sectors (some index)

/-! ## Free space -/

theorem Inv.past (h : t.Inv) (he : e ∈ t.entries) : e.past = .ok (e.first + e.sectors) := by
  have := h.onDisk e he
  have := h.size
  exact if_pos (by omega)

theorem extents_eq (h : ∀ e ∈ es, e.past = .ok (e.first + e.sectors)) :
    extents es = .ok (es.map fun e ↦ (e.first, e.first + e.sectors)) := by
  induction es with
  | nil => rfl
  | cons e es ih =>
    rw [extents, h e List.mem_cons_self, ih fun e' he' ↦ h e' (List.mem_cons_of_mem e he')]
    rfl

theorem pairLe_trans (p q r : ℕ × ℕ) (hpq : pairLe p q = true) (hqr : pairLe q r = true) :
    pairLe p r = true := by
  simp only [pairLe, Bool.or_eq_true, Bool.and_eq_true, decide_eq_true_eq] at *
  omega

theorem pairLe_total (p q : ℕ × ℕ) : (pairLe p q || pairLe q p) = true := by
  simp only [pairLe, Bool.or_eq_true, Bool.and_eq_true, decide_eq_true_eq]
  omega

/-- The gaps the loop finds end in the usable range and touch none of the extents. -/
theorem freeLoop_safe {last : ℕ} (hlast : last + 1 < 2 ^ 64) (used : List (ℕ × ℕ)) (pos : ℕ)
    (hsorted : used.Pairwise fun p q ↦ p.1 ≤ q.1) (hstart : ∀ p ∈ used, p.1 ≤ last + 1) :
    Safe (fun gaps ↦ ∀ g ∈ gaps, pos ≤ g.1 ∧ g.1 + g.2 ≤ last + 1 ∧
      ∀ p ∈ used, p.2 ≤ g.1 ∨ g.1 + g.2 ≤ p.1) (freeLoop last used pos) := by
  induction used generalizing pos with
  | nil =>
    rw [freeLoop]
    split_ifs with hle
    · refine (safe_addU64 hlast rfl).bind fun past hpast ↦ ?_
      simp only [safe_pure, List.mem_singleton, forall_eq, List.not_mem_nil, false_imp_iff,
        implies_true, and_true]
      omega
    · simp
  | cons p used ih =>
    obtain ⟨first, past⟩ := p
    obtain ⟨hfirst, hrest⟩ := List.pairwise_cons.1 hsorted
    have hle := hstart _ List.mem_cons_self
    have hih := ih (max pos past) hrest fun q hq ↦ hstart q (List.mem_cons_of_mem _ hq)
    refine hih.bind fun gaps hgaps ↦ ?_
    -- A gap of the rest starts after this extent; the one before it ends where it starts.
    have hkeep : ∀ g ∈ gaps, pos ≤ g.1 ∧ g.1 + g.2 ≤ last + 1 ∧
        ∀ q ∈ (first, past) :: used, q.2 ≤ g.1 ∨ g.1 + g.2 ≤ q.1 := by
      intro g hg
      obtain ⟨hpos, hend, hclear⟩ := hgaps g hg
      refine ⟨by omega, hend, fun q hq ↦ ?_⟩
      rcases List.mem_cons.1 hq with rfl | hq
      · exact Or.inl (by dsimp only; omega)
      · exact hclear q hq
    split_ifs with hgap
    · intro g hg
      rcases List.mem_cons.1 hg with rfl | hg
      · refine ⟨Nat.le_refl _, by dsimp only at hle ⊢; omega, fun q hq ↦ Or.inr ?_⟩
        rcases List.mem_cons.1 hq with rfl | hq
        · dsimp only
          omega
        · have := hfirst q hq
          omega
      · exact hkeep g hg
    · exact hkeep

/-- **Free space is free**: what `free` gives is usable and no entry touches it. -/
theorem free_safe (h : t.Inv) :
    Safe (fun gaps ↦ ∀ g ∈ gaps, t.Clear g.1 g.2 none) t.free := by
  have hlast : t.lastUsable + 1 < 2 ^ 64 := by
    have := h.usable
    have := h.size
    omega
  rw [free, extents_eq fun e he ↦ h.past he]
  set used := t.entries.map fun e ↦ (e.first, e.first + e.sectors) with hused
  have hmem : ∀ p, p ∈ used.mergeSort pairLe ↔ p ∈ used := fun p ↦ List.mem_mergeSort
  have hsorted : (used.mergeSort pairLe).Pairwise fun p q ↦ p.1 ≤ q.1 := by
    refine (List.pairwise_mergeSort pairLe_trans pairLe_total used).imp fun {p q} hpq ↦ ?_
    simp only [pairLe, Bool.or_eq_true, Bool.and_eq_true, decide_eq_true_eq] at hpq
    omega
  have hstart : ∀ p ∈ used.mergeSort pairLe, p.1 ≤ t.lastUsable + 1 := by
    intro p hp
    obtain ⟨e, he, rfl⟩ := List.mem_map.1 ((hmem p).1 hp)
    exact h.starts e he
  refine (freeLoop_safe hlast _ t.firstUsable hsorted hstart).mono fun gaps hgaps g hg ↦ ?_
  obtain ⟨hfirst, hend, hclear⟩ := hgaps g hg
  refine ⟨hfirst, hend, fun e he _ ↦ ?_⟩
  exact hclear _ ((hmem _).2 (List.mem_map.2 ⟨e, he, rfl⟩))

/-! ## Adding -/

theorem Clear.within {except : Option ℕ} (h : t.Clear pos n except) (hfirst : pos ≤ first)
    (hend : first + len ≤ pos + n) : t.Clear first len except := by
  obtain ⟨hlo, hhi, hclear⟩ := h
  refine ⟨by omega, by omega, fun e he hne ↦ ?_⟩
  rcases hclear e he hne with hbefore | hafter
  · exact Or.inl (by omega)
  · exact Or.inr (by omega)

theorem Inv.clear_fits (h : t.Inv) {except : Option ℕ} (hclear : t.Clear pos n except) :
    pos + n < 2 ^ 64 ∧ pos + 2048 ≤ 2 ^ 64 := by
  have := hclear.2.1
  have := h.usable
  have := h.size
  omega

theorem extentOf_safe (h : t.Inv) {gaps : List (ℕ × ℕ)} (hgaps : ∀ g ∈ gaps, t.Clear g.1 g.2 none) :
    Safe (fun o ↦ ∀ g, o = some g → g.1 ≤ first ∧ t.Clear g.1 g.2 none) (extentOf first gaps) := by
  induction gaps with
  | nil => simp [extentOf]
  | cons g gaps ih =>
    have hrest := ih fun g' hg' ↦ hgaps g' (List.mem_cons_of_mem g hg')
    have hg := hgaps g List.mem_cons_self
    rw [extentOf]
    split_ifs with hlt
    · exact hrest
    · refine (safe_addU64 (h.clear_fits hg).1 rfl).bind fun past _ ↦ ?_
      split_ifs
      · rintro g' ⟨rfl⟩
        exact ⟨by omega, hg⟩
      · exact hrest

theorem placeIn_safe (h : t.Inv) (hclear : t.Clear pos n none) (hfirst : pos ≤ first) (block : ℕ)
    (want : Option ℕ) :
    Safe (fun p ↦ 0 < p.2 ∧ t.Clear p.1 p.2 none) (placeIn block first want pos n) := by
  refine (safe_addU64 (h.clear_fits hclear).1 rfl).bind fun past hpast ↦ ?_
  subst hpast
  dsimp only
  split_ifs with hbad
  · trivial
  · have hroom := Nat.div_mul_le_self (pos + n - first) block
    refine ⟨by dsimp only; omega, hclear.within hfirst (by dsimp only; omega)⟩

theorem divCeil_mul (a : ℕ) {b : ℕ} (hb : 0 < b) :
    a ≤ divCeil a b * b ∧ divCeil a b * b < a + b := by
  have hdiv := Nat.div_add_mod (a + b - 1) b
  have hmod := Nat.mod_lt (a + b - 1) hb
  rw [divCeil, Nat.mul_comm]
  omega

theorem Inv.align_pos (_ : t.Inv) : 0 < t.align :=
  Nat.lt_of_lt_of_le Nat.one_pos (Nat.le_max_right _ _)

theorem Inv.align_le (h : t.Inv) : t.align ≤ 2048 := by
  have hdiv : alignBytes / t.sectorSize ≤ alignBytes / 512 :=
    Nat.div_le_div_left h.sector (by decide)
  have heq : alignBytes / 512 = 2048 := by decide
  rw [align]
  omega

theorem placeLoop_safe (h : t.Inv) (hwant : ∀ n, want = some n → 0 < n) {gaps : List (ℕ × ℕ)}
    (hgaps : ∀ g ∈ gaps, t.Clear g.1 g.2 none) :
    Safe (fun p ↦ 0 < p.2 ∧ t.Clear p.1 p.2 none) (placeLoop t.align t.block want gaps) := by
  induction gaps with
  | nil => trivial
  | cons g gaps ih =>
    obtain ⟨pos, n⟩ := g
    have hrest := ih fun g' hg' ↦ hgaps g' (List.mem_cons_of_mem _ hg')
    have hg := hgaps _ List.mem_cons_self
    obtain ⟨hfits, hsize⟩ := h.clear_fits hg
    obtain ⟨hle, hlt⟩ := divCeil_mul pos h.align_pos
    have halign := h.align_le
    rw [placeLoop, mulU64, if_pos (by omega), addU64, if_pos hfits]
    -- The boundary is at or after the gap's start, and what fits there ends in the gap.
    have hroom := Nat.div_mul_le_self (pos + n - divCeil pos t.align * t.align) t.block
    show Safe _ (if _ then _ else _)
    cases want with
    | none =>
      split_ifs with hpast hpos
      · exact hrest
      · exact ⟨hpos, hg.within hle (by dsimp only; omega)⟩
      · exact hrest
    | some n' =>
      dsimp only
      split_ifs with hpast hlen
      · exact hrest
      · exact ⟨hwant n' rfl, hg.within hle (by dsimp only; omega)⟩
      · exact hrest

theorem place_safe (h : t.Inv) (at' : Option ℕ) (hwant : ∀ n, want = some n → 0 < n) :
    Safe (fun p ↦ 0 < p.2 ∧ t.Clear p.1 p.2 none) (t.place at' want) := by
  refine (free_safe h).bind fun gaps hgaps ↦ ?_
  cases at' with
  | none => exact placeLoop_safe h hwant hgaps
  | some first =>
    refine (extentOf_safe h hgaps).bind fun o ho ↦ ?_
    cases o with
    | none => trivial
    | some g => exact placeIn_safe h (ho g rfl).2 (ho g rfl).1 t.block want

theorem unused_spec (hindex : t.unused = some index) :
    (1 ≤ index ∧ index ≤ t.slots) ∧ ∀ e ∈ t.entries, e.index ≠ index := by
  obtain ⟨hnone, -⟩ := List.find?_eq_some_iff_append.1 hindex
  have hmem := List.mem_of_find?_eq_some hindex
  obtain ⟨i, hi, rfl⟩ := List.mem_map.1 hmem
  have hlt := List.mem_range.1 hi
  refine ⟨by omega, fun e he heq ↦ ?_⟩
  rw [Option.isNone_iff_eq_none] at hnone
  exact List.find?_eq_none.1 hnone e he (decide_eq_true heq)

theorem mem_insert {x : Entry} : x ∈ (t.insert e).entries ↔ x = e ∨ x ∈ t.entries := by
  rw [insert, List.mem_mergeSort, List.mem_append, List.mem_singleton, or_comm]

/-- Inserted in the order of the numbers. -/
theorem insert_sorted (h : t.entries.Pairwise fun a b ↦ a.index < b.index)
    (he : ∀ o ∈ t.entries, o.index ≠ e.index) :
    (t.insert e).entries.Pairwise fun a b ↦ a.index < b.index := by
  have hle : (t.insert e).entries.Pairwise fun a b ↦ a.index ≤ b.index := by
    refine (List.pairwise_mergeSort ?_ ?_ (t.entries ++ [e])).imp of_decide_eq_true
    · intro a b c hab hbc
      exact decide_eq_true (Nat.le_trans (of_decide_eq_true hab) (of_decide_eq_true hbc))
    · intro a b
      simpa using Nat.le_total a.index b.index
  have hne : (t.insert e).entries.Pairwise fun a b ↦ a.index ≠ b.index := by
    refine (List.Perm.pairwise_iff Ne.symm (List.mergeSort_perm _ _)).2 ?_
    refine List.pairwise_append.2 ⟨h.imp Nat.ne_of_lt, List.pairwise_singleton _ _, ?_⟩
    intro o ho x hx
    rw [List.mem_singleton.1 hx]
    exact he o ho
  exact hle.imp₂ (fun _ _ ↦ Nat.lt_of_le_of_ne) hne

/-- An entry in clear space may be inserted. -/
theorem Inv.insert (h : t.Inv) (hpos : 0 < e.sectors) (hclear : t.Clear e.first e.sectors none)
    (hindex : ∀ o ∈ t.entries, o.index ≠ e.index) :
    (t.insert e).Inv ∧ (t.insert e).Apart e.index := by
  have hend : e.first + e.sectors ≤ t.lastUsable + 1 := hclear.2.1
  have husable := h.usable
  refine ⟨⟨h.size, h.sector, h.usable, fun x hx ↦ ?_, fun x hx ↦ ?_, fun x hx ↦ ?_,
    insert_sorted h.sorted hindex⟩, e, mem_insert.2 (Or.inl rfl), rfl, hclear.1, hend,
    fun x hx hne ↦ ?_⟩
  · rcases mem_insert.1 hx with rfl | hx
    · exact hpos
    · exact h.pos x hx
  · rcases mem_insert.1 hx with rfl | hx
    · show x.first + x.sectors ≤ t.diskSectors
      omega
    · exact h.onDisk x hx
  · rcases mem_insert.1 hx with rfl | hx
    · show x.first ≤ t.lastUsable + 1
      omega
    · exact h.starts x hx
  · rcases mem_insert.1 hx with rfl | hx
    · exact absurd rfl hne
    · exact hclear.2.2 x hx (by simp)

theorem wanted_pos (h : t.wanted sectors = some want) : ∀ n, want = some n → 0 < n := by
  cases sectors with
  | none =>
    cases h
    simp
  | some n =>
    rw [wanted] at h
    split_ifs at h with hpos
    cases h
    rintro n ⟨rfl⟩
    exact hpos

/-- **Adding a partition.** -/
theorem add_safe (h : t.Inv) (code : TypeCode) (label : List Char) (at' sectors : Option ℕ)
    (guid : Guid) :
    Safe (fun p ↦ p.1.Inv ∧ p.1.Apart p.2) (t.add code label at' sectors guid) := by
  rw [add]
  split_ifs
  · trivial
  · cases hindex : t.unused with
    | none => trivial
    | some index =>
      cases hwant : t.wanted sectors with
      | none => trivial
      | some want =>
        refine (place_safe h at' (wanted_pos hwant)).bind fun p hp ↦ ?_
        dsimp only
        split_ifs
        · trivial
        · exact h.insert hp.1 hp.2 (unused_spec hindex).2
  · trivial

/-- What `add` adds. -/
theorem add_cases {code : TypeCode} {label : List Char} {at' : Option ℕ} {guid : Guid}
    (hadd : t.add code label at' sectors guid = .ok (t', index)) :
    wrongScheme t.scheme code = false ∧ t.labelOk label = true ∧ t.unused = some index ∧
      ∃ want first len, t.wanted sectors = some want ∧ t.place at' want = .ok (first, len) ∧
        t.pastMbr first len = false ∧ t' = t.insert {
          index, code, first, sectors := len, label, guid, attributes := 0, active := false } := by
  rw [add] at hadd
  split_ifs at hadd with hscheme hlabel
  cases hindex : t.unused with
  | none =>
    rw [hindex] at hadd
    cases hadd
  | some i =>
    cases hwant : t.wanted sectors with
    | none =>
      rw [hindex, hwant] at hadd
      cases hadd
    | some want =>
      simp only [hindex, hwant] at hadd
      obtain ⟨p, hplace, hadd⟩ := of_bind_ok hadd
      split_ifs at hadd with hpast
      cases hadd
      exact
        ⟨by simpa using hscheme, hlabel, rfl, want, p.1, p.2, rfl, hplace, by simpa using hpast, rfl⟩

/-! ## Resizing -/

theorem startsAfter_safe (h : t.Inv) (he : e ∈ t.entries) (es : List Entry) :
    Safe (fun starts ↦ ∀ s ∈ starts, e.first ≤ s) (startsAfter e es) := by
  induction es with
  | nil => simp [startsAfter]
  | cons o os ih =>
    rw [startsAfter]
    split_ifs
    · exact ih
    · rw [h.past he]
      refine ih.bind fun starts hstarts ↦ ?_
      split_ifs with hle
      · intro s hs
        rcases List.mem_cons.1 hs with rfl | hs
        · omega
        · exact hstarts s hs
      · exact hstarts

theorem resizeLen_safe {limit : ℕ} (hlimit : e.first ≤ limit) (block : ℕ) (sectors : Option ℕ) :
    Safe (fun _ ↦ True) (resizeLen block e limit sectors) := by
  cases sectors with
  | none =>
    rw [resizeLen, subU64, if_pos hlimit]
    trivial
  | some n => trivial

theorem clearOf_safe (h : t.Inv) (past : ℕ) (hes : ∀ e ∈ es, e ∈ t.entries) :
    Safe (fun b ↦ b = true → ∀ e ∈ es, some e.index ≠ some index →
      e.first + e.sectors ≤ first ∨ past ≤ e.first) (clearOf first past index es) := by
  induction es with
  | nil => simp [clearOf]
  | cons e es ih =>
    have hrest := ih fun e' he' ↦ hes e' (List.mem_cons_of_mem e he')
    -- The entry is the partition itself, lies after the extent or before it.
    have hcons (hhead : e.index = index ∨ e.first + e.sectors ≤ first ∨ past ≤ e.first) :
        Safe (fun b ↦ b = true → ∀ e' ∈ e :: es, some e'.index ≠ some index →
          e'.first + e'.sectors ≤ first ∨ past ≤ e'.first) (clearOf first past index es) := by
      refine hrest.mono fun b hb htrue e' he' hne ↦ ?_
      rcases List.mem_cons.1 he' with rfl | he'
      · exact hhead.resolve_left fun heq ↦ hne (congrArg some heq)
      · exact hb htrue e' he' hne
    rw [clearOf]
    split_ifs with hskip
    · exact hcons (hskip.imp_right Or.inr)
    · rw [h.past (hes e List.mem_cons_self)]
      show Safe _ (if _ then _ else _)
      split_ifs with hbefore
      · exact hcons (Or.inr (Or.inl hbefore))
      · simp

theorem fits_safe (h : t.Inv) :
    Safe (fun b ↦ b = true → t.Clear first len (some index)) (t.fits first len index) := by
  have husable := h.usable
  have hsize := h.size
  rw [fits]
  split_ifs with hbad
  · simp
  · refine (safe_addU64 (by omega) rfl).bind fun usable husable ↦ ?_
    subst husable
    split_ifs with hend
    · exact (clearOf_safe h (first + len) fun _ ↦ id).mono fun b hb htrue ↦
        ⟨by omega, hend, hb htrue⟩
    · simp

/-- Numbers are unique, so that the change of the first is the change of all. -/
theorem update_eq_map {f : Entry → Entry} (hsorted : es.Pairwise fun a b ↦ a.index < b.index) :
    update index f es = es.map fun e ↦ if e.index = index then f e else e := by
  induction es with
  | nil => rfl
  | cons e es ih =>
    obtain ⟨hhead, hrest⟩ := List.pairwise_cons.1 hsorted
    rw [update, List.map_cons]
    split_ifs with heq
    · refine congrArg _ ((List.map_id' es).symm.trans (List.map_congr_left fun o ho ↦ ?_))
      have := hhead o ho
      rw [if_neg (by omega)]
    · rw [ih hrest]

/-- A change of the entries in place that keeps their numbers. -/
theorem Inv.map (h : t.Inv) {g : Entry → Entry} (hindex : ∀ e, (g e).index = e.index)
    (hg : ∀ e ∈ t.entries, (g e).first = e.first ∧ 0 < (g e).sectors ∧
      (g e).first + (g e).sectors ≤ t.diskSectors) :
    { t with entries := t.entries.map g }.Inv := by
  refine ⟨h.size, h.sector, h.usable, ?_, ?_, ?_, ?_⟩
  · simpa using fun e he ↦ (hg e he).2.1
  · simpa using fun e he ↦ (hg e he).2.2
  · simpa using fun e he ↦ (hg e he).1.symm ▸ h.starts e he
  · rw [List.pairwise_map]
    simpa only [hindex] using h.sorted

theorem Inv.eq_of_index (h : t.Inv) {a b : Entry} (ha : a ∈ t.entries) (hb : b ∈ t.entries)
    (heq : a.index = b.index) : a = b := by
  have hnodup : (t.entries.map Entry.index).Nodup := List.pairwise_map.2 (h.sorted.imp Nat.ne_of_lt)
  exact List.inj_on_of_nodup_map hnodup ha hb heq

theorem Inv.resized (h : t.Inv) (he : e ∈ t.entries) (hindex : e.index = index) (hpos : 0 < len)
    (hclear : t.Clear e.first len (some index)) :
    let t' := { t with entries := update index (fun e ↦ { e with sectors := len }) t.entries }
    t'.Inv ∧ t'.Apart index := by
  rw [update_eq_map h.sorted]
  have hend := hclear.2.1
  have husable := h.usable
  refine ⟨h.map (fun o ↦ by split_ifs <;> rfl) fun o ho ↦ ?_, ?_⟩
  · split_ifs with ho'
    · obtain rfl : o = e := h.eq_of_index ho he (ho'.trans hindex.symm)
      exact ⟨rfl, hpos, by dsimp only; omega⟩
    · exact ⟨rfl, h.pos o ho, h.onDisk o ho⟩
  · refine ⟨{ e with sectors := len }, ?_, hindex, hclear.1, hclear.2.1, ?_⟩
    · exact List.mem_map.2 ⟨e, he, if_pos hindex⟩
    · intro o ho hne
      obtain ⟨o', ho', rfl⟩ := List.mem_map.1 ho
      by_cases heq : o'.index = index
      · rw [if_pos heq] at hne
        exact absurd (congrArg some heq) hne
      · rw [if_neg heq] at hne ⊢
        exact hclear.2.2 o' ho' hne

/-- **Resizing a partition.** -/
theorem resize_safe (h : t.Inv) (index : ℕ) (sectors : Option ℕ) :
    Safe (fun t' ↦ t'.Inv ∧ t'.Apart index) (t.resize index sectors) := by
  rw [resize]
  cases hentry : t.entry index with
  | none => trivial
  | some e =>
    have he := List.mem_of_find?_eq_some hentry
    have hindex : e.index = index := by simpa using List.find?_some hentry
    have hstart := h.starts e he
    have husable := h.usable
    have hsize := h.size
    refine (startsAfter_safe h he t.entries).bind fun starts hstarts ↦ ?_
    refine (safe_addU64 (by omega) rfl).bind fun usable husable ↦ ?_
    have hlimit : e.first ≤ starts.min?.getD usable := by
      cases hmin : starts.min? with
      | none => exact husable ▸ hstart
      | some s => exact hstarts s (List.min?_mem hmin)
    refine (resizeLen_safe hlimit t.block sectors).bind fun len _ ↦ ?_
    by_cases hzero : len = 0
    · rw [if_pos hzero]
      trivial
    · rw [if_neg hzero]
      refine (fits_safe h).bind fun ok hok ↦ ?_
      cases ok with
      | false => trivial
      | true =>
        show Safe _ (if t.pastMbr e.first len then _ else _)
        split_ifs
        · trivial
        · exact h.resized he hindex (Nat.pos_of_ne_zero hzero) (hok rfl)

/-- What `resize` changes. -/
theorem resize_cases (hresize : t.resize index sectors = .ok t') :
    ∃ e len, t.entry index = some e ∧ 0 < len ∧ t.fits e.first len index = .ok true ∧
      t.pastMbr e.first len = false ∧
      t' = { t with entries := update index (fun e ↦ { e with sectors := len }) t.entries } := by
  rw [resize] at hresize
  cases hentry : t.entry index with
  | none =>
    rw [hentry] at hresize
    cases hresize
  | some e =>
    simp only [hentry] at hresize
    obtain ⟨starts, -, hresize⟩ := of_bind_ok hresize
    obtain ⟨usable, -, hresize⟩ := of_bind_ok hresize
    obtain ⟨len, -, hresize⟩ := of_bind_ok hresize
    by_cases hzero : len = 0
    · rw [if_pos hzero] at hresize
      cases hresize
    · rw [if_neg hzero] at hresize
      obtain ⟨ok, hfits, hresize⟩ := of_bind_ok hresize
      split_ifs at hresize with hok hpast
      cases hresize
      simp only [Bool.not_eq_true', Bool.not_eq_false] at hok
      exact ⟨e, len, rfl, Nat.pos_of_ne_zero hzero, hok ▸ hfits, by simpa using hpast, rfl⟩

/-! ## The other calls -/

theorem Inv.delete (h : t.Inv) (p : Entry → Bool) :
    { t with entries := t.entries.eraseP p }.Inv := by
  have hsub : (t.entries.eraseP p).Sublist t.entries := List.eraseP_sublist
  exact ⟨h.size, h.sector, h.usable, fun e he ↦ h.pos e (hsub.subset he),
    fun e he ↦ h.onDisk e (hsub.subset he), fun e he ↦ h.starts e (hsub.subset he),
    h.sorted.sublist hsub⟩

theorem delete_cases (hstep : t.delete index = .ok (t', e)) :
    t' = { t with entries := t.entries.eraseP fun e ↦ e.index = index } := by
  rw [Table.delete] at hstep
  split at hstep
  · cases hstep
  · cases hstep
    rfl

theorem modify_cases {code : Option TypeCode} {label : Option (List Char)}
    (hstep : t.modify index code label = .ok t') :
    code.any (wrongScheme t.scheme) = false ∧ (label.any fun l ↦ !t.labelOk l) = false ∧
      t' = { t with entries := update index (fun e ↦
        { e with code := code.getD e.code, label := label.getD e.label }) t.entries } := by
  rw [modify] at hstep
  split_ifs at hstep with hcode hlabel
  cases hstep
  exact ⟨by simpa using hcode, by simpa using hlabel, rfl⟩

theorem setActive_cases {active : Bool} (hstep : t.setActive index active = .ok t') :
    t.scheme = .mbr ∧
      t' =
          { t with entries := t.entries.map fun e ↦ { e with active := flagOf index active e } } := by
  rw [setActive] at hstep
  split_ifs at hstep with hscheme
  cases hstep
  exact ⟨not_not.1 hscheme, rfl⟩

theorem setActive_inv (h : t.Inv) {active : Bool} (hstep : t.setActive index active = .ok t') :
    t'.Inv := by
  obtain ⟨-, rfl⟩ := setActive_cases hstep
  exact h.map (fun _ ↦ rfl) fun e he ↦ ⟨rfl, h.pos e he, h.onDisk e he⟩

/-- Boot code changes the boot sector, and may mark a partition active. -/
theorem setBiosBootcodeIn_cases {code : List UInt8} {bios : Option ℕ} {lba : ℕ} {bytes : List UInt8}
    (hstep : t.setBiosBootcodeIn code bios = .ok (t', lba, bytes)) :
    ∃ boot, t' = { t with boot := boot } ∨
      ∃ index, { t with boot := boot }.setActive index true = .ok t' := by
  rw [setBiosBootcodeIn] at hstep
  split_ifs at hstep
  obtain ⟨⟨loc, room⟩, -, hstep⟩ := of_bind_ok hstep
  refine ⟨bootWith t.boot code loc, ?_⟩
  dsimp only at hstep
  split_ifs at hstep with hroom hactive
  · split at hstep
    · cases hstep
      exact Or.inl rfl
    · obtain ⟨t'', hset, hstep⟩ := of_bind_ok hstep
      cases hstep
      exact Or.inr ⟨_, hset⟩
  · cases hstep
    exact Or.inl rfl

end Table

variable {t : Table}

/-- **Every successful call keeps the invariant.** -/
theorem step_inv {t' : Table} (c : Call) (h : t.Inv) (hstep : step t c = some t') : t'.Inv := by
  cases c with
  | add code label first sectors guid =>
    obtain ⟨index, hadd⟩ := toOption_map_fst.1 hstep
    exact ((Table.add_safe h code label first sectors guid).of_ok hadd).1
  | delete index =>
    obtain ⟨e, hdelete⟩ := toOption_map_fst.1 hstep
    exact Table.delete_cases hdelete ▸ h.delete _
  | resize index sectors =>
    exact ((Table.resize_safe h index sectors).of_ok (toOption_eq_some.1 hstep)).1
  | modify index code label =>
    obtain ⟨-, -, rfl⟩ := Table.modify_cases (toOption_eq_some.1 hstep)
    rw [Table.update_eq_map h.sorted]
    refine h.map (fun e ↦ by split_ifs <;> rfl) fun e he ↦ ?_
    split_ifs <;> exact ⟨rfl, h.pos e he, h.onDisk e he⟩
  | setActive index active => exact Table.setActive_inv h (toOption_eq_some.1 hstep)
  | setBiosBootcode code bios =>
    obtain ⟨⟨lba, bytes⟩, hboot⟩ := toOption_map_fst.1 hstep
    have hinv (boot : Vector UInt8 446) : { t with boot := boot }.Inv :=
      ⟨h.size, h.sector, h.usable, h.pos, h.onDisk, h.starts, h.sorted⟩
    obtain ⟨boot, rfl | ⟨index, hset⟩⟩ := Table.setBiosBootcodeIn_cases hboot
    · exact hinv boot
    · exact Table.setActive_inv (hinv boot) hset

/-- A call leaves the table's place and size alone. -/
theorem step_geometry {t' : Table} (c : Call) (hstep : step t c = some t') :
    t' = { t with entries := t'.entries, boot := t'.boot } := by
  cases c with
  | add code label first sectors guid =>
    obtain ⟨index, hadd⟩ := toOption_map_fst.1 hstep
    obtain ⟨-, -, -, want, first, len, -, -, -, rfl⟩ := Table.add_cases hadd
    rfl
  | delete index =>
    obtain ⟨e, hdelete⟩ := toOption_map_fst.1 hstep
    rw [Table.delete_cases hdelete]
  | resize index sectors =>
    obtain ⟨e, len, -, -, -, -, rfl⟩ := Table.resize_cases (toOption_eq_some.1 hstep)
    rfl
  | modify index code label =>
    obtain ⟨-, -, rfl⟩ := Table.modify_cases (toOption_eq_some.1 hstep)
    rfl
  | setActive index active =>
    obtain ⟨-, rfl⟩ := Table.setActive_cases (toOption_eq_some.1 hstep)
    rfl
  | setBiosBootcode code bios =>
    obtain ⟨⟨lba, bytes⟩, hboot⟩ := toOption_map_fst.1 hstep
    obtain ⟨boot, rfl | ⟨index, hset⟩⟩ := Table.setBiosBootcodeIn_cases hboot
    · rfl
    · obtain ⟨-, rfl⟩ := Table.setActive_cases hset
      rfl

/-- What holds of the table holds of every table the calls make of it. -/
theorem Table.Inv.run {s : Table} {calls : List Call} (h : t.Inv)
    (hrun : Machine.run step t calls = some s) : s.Inv ∧ s.diskSectors = t.diskSectors := by
  refine Machine.run_keeps (I := fun s : Table ↦ s.Inv ∧ s.diskSectors = t.diskSectors) ?_
    ⟨h, rfl⟩ hrun
  intro s c s' hs hstep
  refine ⟨step_inv c hs.1 hstep, ?_⟩
  rw [step_geometry c hstep]
  exact hs.2

end OxideBSD.Part
