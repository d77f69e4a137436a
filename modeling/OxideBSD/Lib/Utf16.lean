import Mathlib

/-!
# UTF-16

* `encode` gives a text's code units.
* `decode` reads code units back, `none` for a surrogate without its other half.
* `decode_encode`: a text is read back.  `encode_decode_length`: a text read with a replacement for
  lone surrogates needs no more code units than it was read from.
-/

set_option autoImplicit false

namespace OxideBSD.Utf16

open List Option

/-- The code units of one character: itself, or a pair of surrogates. -/
def units (c : Char) : List ℕ :=
  if c.toNat < 0x10000 then [c.toNat]
  else [0xD800 + (c.toNat - 0x10000) / 0x400, 0xDC00 + (c.toNat - 0x10000) % 0x400]

def encode (s : List Char) : List ℕ := s.flatMap units

/-- The characters of `us`; a half of a pair alone is `none`. -/
def decode : List ℕ → List (Option Char)
  | [] => []
  | [u] => [if 0xD800 ≤ u ∧ u ≤ 0xDFFF then none else some (Char.ofNat u)]
  | u :: v :: us =>
    if ¬(0xD800 ≤ u ∧ u ≤ 0xDFFF) then some (Char.ofNat u) :: decode (v :: us)
    else if 0xDC00 ≤ u ∨ ¬(0xDC00 ≤ v ∧ v ≤ 0xDFFF) then none :: decode (v :: us)
    else some (Char.ofNat (0x10000 + (u - 0xD800) * 0x400 + (v - 0xDC00))) :: decode us

/-! ## Characters as numbers -/

theorem toNat_ofNat {n : ℕ} (h : n < 0xD800 ∨ 0xDFFF < n ∧ n < 0x110000) :
    (Char.ofNat n).toNat = n := by
  rw [Char.ofNat, dif_pos h]
  rfl

theorem toNat_valid (c : Char) : c.toNat < 0xD800 ∨ 0xDFFF < c.toNat ∧ c.toNat < 0x110000 := c.valid

theorem length_units_ofNat {u : ℕ} (h : u < 0xD800 ∨ 0xDFFF < u) (hu : u < 0x10000) :
    (units (Char.ofNat u)).length = 1 := by
  rw [units, toNat_ofNat (by omega), if_pos hu]
  rfl

theorem length_units_le (c : Char) : (units c).length ≤ 2 := by
  rw [units]
  split_ifs <;> simp

theorem units_bounds {c : Char} (hc : c ≠ '\x00') : ∀ u ∈ units c, 0 < u ∧ u < 0x10000 := by
  have hvalid := toNat_valid c
  have hpos : c.toNat ≠ 0 := fun h ↦ hc (Char.toNat_inj.1 h)
  rw [units]
  split_ifs with hbmp
  · simp only [mem_singleton]
    omega
  · simp only [mem_cons, not_mem_nil, or_false]
    omega

/-! ## Round trips -/

theorem decode_cons {u : ℕ} (h : ¬(0xD800 ≤ u ∧ u ≤ 0xDFFF)) (us : List ℕ) :
    decode (u :: us) = some (Char.ofNat u) :: decode us := by
  cases us with
  | nil => simp [decode, h]
  | cons v us => rw [decode, if_pos h]

theorem decode_pair {u v n : ℕ} (hu : 0xD800 ≤ u ∧ u < 0xDC00) (hv : 0xDC00 ≤ v ∧ v ≤ 0xDFFF)
    (hn : 0x10000 + (u - 0xD800) * 0x400 + (v - 0xDC00) = n) (us : List ℕ) :
    decode (u :: v :: us) = some (Char.ofNat n) :: decode us := by
  rw [decode, if_neg (by omega), if_neg (by omega), hn]

/-- **A text is read back from its code units.** -/
theorem decode_encode (s : List Char) : decode (encode s) = s.map some := by
  induction s with
  | nil => rfl
  | cons c s ih =>
    have hvalid := toNat_valid c
    rw [encode, flatMap_cons, ← encode, units, map_cons, ← ih]
    split_ifs with hbmp
    · rw [singleton_append, decode_cons (by omega), Char.ofNat_toNat]
    · simp only [cons_append, nil_append]
      generalize hc : c.toNat = n at hvalid hbmp ⊢
      rw [decode_pair (n := n) (by omega) (by omega) (by omega), ← hc, Char.ofNat_toNat]

theorem length_encode_cons (c : Char) (s : List Char) :
    (encode (c :: s)).length = (units c).length + (encode s).length := by
  rw [encode, flatMap_cons, length_append, ← encode]

/-- The code units of what is read, `r` in the place of lone surrogates. -/
theorem encode_decode_length {r : Char} (hr : (units r).length = 1) {us : List ℕ}
    (h : ∀ u ∈ us, u < 0x10000) :
    (encode ((decode us).map fun c ↦ c.getD r)).length ≤ us.length := by
  fun_induction decode us with
  | case1 => simp [encode]
  | case2 u =>
    have hu := h u mem_cons_self
    split_ifs with hsur
    · simp [encode, hr]
    · have hone := length_units_ofNat (by omega) hu
      simp [encode, hone]
  | case3 u v us hbmp ih =>
    have hone := length_units_ofNat (by omega) (h u mem_cons_self)
    have hrest := ih fun w hw ↦ h w (mem_cons_of_mem u hw)
    rw [map_cons, length_encode_cons, getD_some, length_cons]
    omega
  | case4 u v us hsur hlone ih =>
    have hrest := ih fun w hw ↦ h w (mem_cons_of_mem u hw)
    rw [map_cons, length_encode_cons, getD_none, length_cons]
    omega
  | case5 u v us hsur hpair ih =>
    have hrest := ih fun w hw ↦ h w (mem_cons_of_mem u (mem_cons_of_mem v hw))
    rw [map_cons, length_encode_cons]
    refine Nat.le_trans (Nat.add_le_add (length_units_le _) hrest) ?_
    simp only [length_cons]
    omega

/-- Units that are not zero are no zero characters. -/
theorem decode_ne_zero {r : Char} (hr : r ≠ '\x00') {us : List ℕ}
    (h : ∀ u ∈ us, 0 < u ∧ u < 0x10000) :
    ∀ c ∈ (decode us).map fun c ↦ c.getD r, c ≠ '\x00' := by
  have hne {n : ℕ} (hn : n < 0xD800 ∨ 0xDFFF < n ∧ n < 0x110000) (hpos : 0 < n) :
      Char.ofNat n ≠ '\x00' := by
    intro hzero
    have := toNat_ofNat hn
    rw [hzero] at this
    have hchar : ('\x00' : Char).toNat = 0 := by decide
    omega
  fun_induction decode us with
  | case1 => simp
  | case2 u =>
    have hu := h u mem_cons_self
    split_ifs with hsur
    · simpa using hr
    · simpa using hne (by omega) hu.1
  | case3 u v us hbmp ih =>
    have hu := h u mem_cons_self
    rw [map_cons, forall_mem_cons]
    exact ⟨hne (by omega) hu.1, ih fun w hw ↦ h w (mem_cons_of_mem u hw)⟩
  | case4 u v us hsur hlone ih =>
    rw [map_cons, forall_mem_cons]
    exact ⟨hr, ih fun w hw ↦ h w (mem_cons_of_mem u hw)⟩
  | case5 u v us hsur hpair ih =>
    rw [map_cons, forall_mem_cons, getD_some]
    generalize hn : 0x10000 + (u - 0xD800) * 0x400 + (v - 0xDC00) = n
    exact ⟨hne (by omega) (by omega),
      ih fun w hw ↦ h w (mem_cons_of_mem u (mem_cons_of_mem v hw))⟩

end OxideBSD.Utf16
