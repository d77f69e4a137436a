import Mathlib

/-!
# Words as a set of numbers

A list of words of `w` bits stands for a set of numbers: number `n` is in it when bit `n % w` of
word `n / w` is one.

* `bit`: the members; `setBit`, `clearBit` and `resize` change the words, `bit_of_setBit`,
  `bit_of_clearBit` and `bit_resize` say what that does to the set.
* `low k`: the mask of the `k` lowest bits.  `clear_ctz_not` says what the position of the lowest
  one in the complement of a masked word is.
* `count_bit`: the members below a number, counted word by word.
-/

set_option autoImplicit false

namespace OxideBSD.BitWords

open List

variable {w : ℕ} {ws ws' : List (BitVec w)} {x : BitVec w} {n m k : ℕ}

/-- Whether `n` is in the set; there are no ones past the end. -/
def bit (ws : List (BitVec w)) (n : ℕ) : Bool := (ws.getD (n / w) 0).getLsbD (n % w)

/-- Bit `n` set, in a word that has to be there. -/
def setBit (ws : List (BitVec w)) (n : ℕ) : Option (List (BitVec w)) :=
  ws[n / w]?.map fun x ↦ ws.set (n / w) (x ||| BitVec.twoPow w (n % w))

/-- Bit `n` cleared, in a word that has to be there. -/
def clearBit (ws : List (BitVec w)) (n : ℕ) : Option (List (BitVec w)) :=
  ws[n / w]?.map fun x ↦ ws.set (n / w) (x &&& ~~~BitVec.twoPow w (n % w))

/-- The words cut off or filled up with zeros to `n`. -/
def resize (ws : List (BitVec w)) (n : ℕ) : List (BitVec w) :=
  ws.take n ++ List.replicate (n - ws.length) 0

/-- The `k` lowest bits. -/
def low (w k : ℕ) : BitVec w := BitVec.twoPow w k - 1#w

/-! ## Changing the words -/

theorem bit_of_le (h : ws.length * w ≤ n) : bit ws n = false := by
  rcases Nat.eq_zero_or_pos w with rfl | hw
  · exact BitVec.getLsbD_of_ge _ _ (Nat.zero_le _)
  · rw [bit, getD_eq_default _ _ ((Nat.le_div_iff_mul_le hw).2 h), BitVec.ofNat_eq_ofNat,
      BitVec.getLsbD_zero]

theorem getD_set (hk : k < ws.length) (i : ℕ) :
    (ws.set k x).getD i 0 = if i = k then x else ws.getD i 0 := by
  simp only [getD_eq_getElem?_getD, getElem?_set, hk, if_true]
  by_cases h : i = k
  · rw [if_pos h.symm, if_pos h, Option.getD_some]
  · rw [if_neg (Ne.symm h), if_neg h]

/-- A bit is known from its word and its place there. -/
theorem eq_iff_div_mod : m = n ↔ m / w = n / w ∧ m % w = n % w := by
  constructor
  · rintro rfl
    exact ⟨rfl, rfl⟩
  · rintro ⟨hdiv, hmod⟩
    rw [← Nat.div_add_mod m w, ← Nat.div_add_mod n w, hdiv, hmod]

theorem bit_of_setBit (hw : 0 < w) (hn : n / w < ws.length) : ∃ ws', setBit ws n = some ws' ∧
    ws'.length = ws.length ∧ ∀ m, bit ws' m = (bit ws m || decide (m = n)) := by
  refine ⟨_, by rw [setBit, getElem?_eq_getElem hn, Option.map_some], length_set, ?_⟩
  intro m
  rw [bit, getD_set hn, bit]
  split_ifs with h
  · rw [h, getD_eq_getElem _ _ hn]
    simp [Nat.mod_lt _ hw, eq_iff_div_mod (w := w) (m := m), h, eq_comm]
  · simp [eq_iff_div_mod (w := w) (m := m), h]

theorem bit_of_clearBit (hw : 0 < w) (hn : n / w < ws.length) : ∃ ws', clearBit ws n = some ws' ∧
    ws'.length = ws.length ∧ ∀ m, bit ws' m = (bit ws m && decide (m ≠ n)) := by
  refine ⟨_, by rw [clearBit, getElem?_eq_getElem hn, Option.map_some], length_set, ?_⟩
  intro m
  rw [bit, getD_set hn, bit]
  split_ifs with h
  · rw [h,
      getD_eq_getElem _ _ hn]
    simp [Nat.mod_lt _ hw, eq_iff_div_mod (w := w) (m := m), h, eq_comm]
  · simp [eq_iff_div_mod (w := w) (m := m), h]

theorem length_resize (h : ws.length ≤ n) : (resize ws n).length = n := by
  rw [resize, length_append, length_take, length_replicate]
  omega

/-- Zeros at the end change nothing. -/
theorem getD_resize (h : ws.length ≤ n) (i : ℕ) : (resize ws n).getD i 0 = ws.getD i 0 := by
  rw [resize, take_of_length_le h]
  rcases Nat.lt_or_ge i ws.length with hi | hi
  · rw [getD_append _ _ _ _ hi]
  · rw [getD_append_right _ _ _ _ hi, getD_eq_default _ _ hi]
    rcases Nat.lt_or_ge (i - ws.length) (n - ws.length) with hj | hj
    · rw [getD_replicate _ hj]
    · rw [getD_eq_default _ _ (by rwa [length_replicate])]

theorem bit_resize (h : ws.length ≤ n) (i : ℕ) : bit (resize ws n) i = bit ws i := by
  rw [bit, getD_resize h, bit]

/-- Testing a bit with a mask. -/
theorem and_twoPow_eq_zero (hk : k < w) : x &&& BitVec.twoPow w k = 0#w ↔ x.getLsbD k = false := by
  have hne : BitVec.twoPow w k ≠ 0#w := by
    intro hzero
    have hbit := congrArg (BitVec.getLsbD · k) hzero
    simp [hk] at hbit
  rw [BitVec.and_twoPow]
  cases x.getLsbD k <;> simp [hne]

/-! ## The lowest clear bit of a word -/

theorem getLsbD_low (hk : k < w) (n : ℕ) : (low w k).getLsbD n = decide (n < k) := by
  have hlt : 2 ^ k < 2 ^ w := Nat.pow_lt_pow_right (by decide) hk
  have hpos : 0 < 2 ^ k := Nat.two_pow_pos k
  have hone : (1#w).toNat = 1 := Nat.mod_eq_of_lt (by omega)
  have hlow : low w k = BitVec.ofNat w (2 ^ k - 1) := by
    apply BitVec.eq_of_toNat_eq
    rw [low, BitVec.toNat_sub_of_le, BitVec.toNat_twoPow_of_lt hk, hone, BitVec.toNat_ofNat,
      Nat.mod_eq_of_lt (by omega)]
    rw [BitVec.le_def, BitVec.toNat_twoPow_of_lt hk, hone]
    exact hpos
  rw [hlow, BitVec.getLsbD_ofNat]
  by_cases h : n < k
  · simp [h.trans hk]
  · simp [h]

theorem or_low_getLsbD (hk : k < w) (n : ℕ) :
    (x ||| low w k).getLsbD n = (x.getLsbD n || decide (n < k)) := by
  rw [BitVec.getLsbD_or, getLsbD_low hk]

/-- A word without a clear bit from `k` on. -/
theorem getLsbD_of_full (hk : k < w) (h : x ||| low w k = BitVec.allOnes w) {i : ℕ} (hi : k ≤ i)
    (hiw : i < w) : x.getLsbD i = true := by
  have hbit := or_low_getLsbD (x := x) hk i
  rw [h] at hbit
  simpa [hiw, Nat.not_lt.2 hi] using hbit

/-- The lowest one of the complement of a masked word is the lowest clear bit from `k` on. -/
theorem clear_ctz_not (hk : k < w) (h : x ||| low w k ≠ BitVec.allOnes w) :
    k ≤ (~~~(x ||| low w k)).ctz.toNat ∧ (~~~(x ||| low w k)).ctz.toNat < w ∧
      x.getLsbD (~~~(x ||| low w k)).ctz.toNat = false ∧
      ∀ i, k ≤ i → i < (~~~(x ||| low w k)).ctz.toNat → x.getLsbD i = true := by
  have hne : ~~~(x ||| low w k) ≠ 0#w := by
    intro hzero
    rw [BitVec.not_eq_comm, BitVec.not_zero] at hzero
    exact h hzero
  have hone := BitVec.getLsbD_true_ctz_of_ne_zero hne
  generalize hpos : (~~~(x ||| low w k)).ctz.toNat = p at hone ⊢
  have hlt : p < w := BitVec.lt_of_getLsbD hone
  rw [BitVec.getLsbD_not, or_low_getLsbD hk] at hone
  simp only [hlt, decide_true, Bool.true_and, Bool.not_or, Bool.and_eq_true, Bool.not_eq_true',
    decide_eq_false_iff_not, not_lt] at hone
  refine ⟨hone.2, hlt, hone.1, fun i hi hip ↦ ?_⟩
  have hzero := BitVec.getLsbD_false_of_lt_ctz (hpos ▸ hip : i < (~~~(x ||| low w k)).ctz.toNat)
  rw [BitVec.getLsbD_not, or_low_getLsbD hk] at hzero
  simpa [hip.trans hlt, Nat.not_lt.2 hi] using hzero

theorem low_zero : low w 0 = 0#w := by
  rw [low, BitVec.twoPow_zero, BitVec.sub_self]

theorem eq_allOnes_iff : x = BitVec.allOnes w ↔ ∀ i < w, x.getLsbD i = true := by
  constructor
  · rintro rfl i hi
    rw [BitVec.getLsbD_allOnes, decide_eq_true hi]
  · intro h
    apply BitVec.eq_of_getLsbD_eq
    intro i hi
    rw [h i hi, BitVec.getLsbD_allOnes, decide_eq_true hi]

theorem bit_word (hk : k < w) : bit ws (n * w + k) = (ws.getD n 0).getLsbD k := by
  rw [bit, Nat.mul_comm, Nat.mul_add_mod, Nat.mod_eq_of_lt hk, Nat.mul_add_div (by omega),
    Nat.div_eq_of_lt hk, Nat.add_zero]

/-! ## Counting -/

theorem cpopNatRec_eq_count (x : BitVec w) (n : ℕ) :
    x.cpopNatRec n 0 = Nat.count (fun i ↦ x.getLsbD i = true) n := by
  induction n with
  | zero => rfl
  | succ n ih =>
    rw [BitVec.cpopNatRec_succ, BitVec.cpopNatRec_add, ih, Nat.count_succ]
    cases x.getLsbD n <;> simp

theorem cpop_eq_count (x : BitVec w) :
    x.cpop.toNat = Nat.count (fun i ↦ x.getLsbD i = true) w := by
  rw [BitVec.toNat_cpop, cpopNatRec_eq_count]

theorem cpop_and_low (hk : k < w) :
    (x &&& low w k).cpop.toNat = Nat.count (fun i ↦ x.getLsbD i = true) k := by
  rw [cpop_eq_count, Nat.count_eq_card_filter_range, Nat.count_eq_card_filter_range]
  congr 1
  ext i
  simp only [Finset.mem_filter, Finset.mem_range, BitVec.getLsbD_and, getLsbD_low hk,
    Bool.and_eq_true, decide_eq_true_eq]
  constructor
  · rintro ⟨-, hbit, hi⟩
    exact ⟨hi, hbit⟩
  · rintro ⟨hi, hbit⟩
    exact ⟨hi.trans hk, hbit, hi⟩

/-- The members in the first `n` words. -/
theorem count_words (hn : n ≤ ws.length) :
    Nat.count (fun i ↦ bit ws i = true) (n * w)
      = ((ws.take n).map fun x ↦ x.cpop.toNat).sum := by
  induction n with
  | zero => simp
  | succ n ih =>
    rw [Nat.succ_mul, Nat.count_add, ih (by omega), take_succ_eq_append_getElem (by omega),
      map_append, sum_append, map_singleton, sum_singleton, cpop_eq_count,
      Nat.count_eq_card_filter_range _ w, Nat.count_eq_card_filter_range _ w]
    congr 2
    refine Finset.filter_congr fun i hi ↦ ?_
    rw [bit_word (Finset.mem_range.1 hi), getD_eq_getElem _ _ (by omega)]

/-- The members below `n`: whole words, and the low bits of one more. -/
theorem count_bit (hw : 0 < w) (hx : ws[n / w]? = some x) :
    Nat.count (fun i ↦ bit ws i = true) n
      = ((ws.take (n / w)).map fun x ↦ x.cpop.toNat).sum + (x &&& low w (n % w)).cpop.toNat := by
  obtain ⟨hlt, rfl⟩ := List.getElem?_eq_some_iff.1 hx
  have hmod := Nat.mod_lt n hw
  rw [cpop_and_low hmod, ← count_words hlt.le]
  conv_lhs => rw [← Nat.div_add_mod n w, Nat.mul_comm w, Nat.count_add]
  rw [Nat.count_eq_card_filter_range _ (n % w), Nat.count_eq_card_filter_range _ (n % w)]
  congr 2
  refine Finset.filter_congr fun i hi ↦ ?_
  rw [bit_word ((Finset.mem_range.1 hi).trans hmod), getD_eq_getElem _ _ hlt]

end OxideBSD.BitWords
