import OxideBSD.Lib.BitWords
import OxideBSD.Lib.Machine

/-!
# The descriptor numbers in use

`FdBitmap` of `sys/fs/fd.rs`: the descriptor numbers a process has open, a bit each, with a summary
bit for each word that is full, so that the lowest free number is found without looking at every
word.  An index past the end of a vector, and a count that would drop below zero, is `none`.

* `Holds b S`: the bitmap `b` stands for the set `S`.
* `set_holds`, `clear_holds`: the calls do to the set what they say; `lowestFree_lowest` and
  `countBelow_eq` are the two questions.
* `run_agrees`: so it is after any sequence of calls from the empty bitmap.
-/

set_option autoImplicit false

namespace OxideBSD.Fd

open BitWords List Option

/-- `FdBitmap`. -/
structure FdBitmap where
  /-- A bit for each number, set while it is open. -/
  lo : List (BitVec 64)
  /-- A bit for each word of `lo`, set while that is full. -/
  hi : List (BitVec 64)
  count : ℕ
  deriving DecidableEq

namespace FdBitmap

/-- `FdBitmap::default`. -/
def empty : FdBitmap := ⟨[], [], 0⟩

/-- Room for word `w`. -/
def grown (b : FdBitmap) (w : ℕ) : FdBitmap :=
  if b.lo.length ≤ w then
    { b with lo := resize b.lo (w + 1), hi := resize b.hi (w / 64 + 1) }
  else b

/-- `self.hi[w / 64] |= 1 << (w % 64)`, if word `w` is full. -/
def summed (b : FdBitmap) (w : ℕ) : Option FdBitmap := do
  let word ← b.lo[w]?
  if word = BitVec.allOnes 64 then
    let hi ← setBit b.hi w
    pure { b with hi := hi }
  else
    pure b

/-- `set` where there is room. -/
def setWord (b : FdBitmap) (fd : ℕ) : Option FdBitmap := do
  let word ← b.lo[fd / 64]?
  if word &&& BitVec.twoPow 64 (fd % 64) = 0#64 then
    let lo ← setBit b.lo fd
    summed { b with lo := lo, count := b.count + 1 } (fd / 64)
  else
    pure b

def set (b : FdBitmap) (fd : ℕ) : Option FdBitmap := (b.grown (fd / 64)).setWord fd

def clear (b : FdBitmap) (fd : ℕ) : Option FdBitmap :=
  match b.lo[fd / 64]? with
  | none => some b
  | some word =>
    if word &&& BitVec.twoPow 64 (fd % 64) = 0#64 then some b
    else if b.count = 0 then none
    else do
      let lo ← clearBit b.lo fd
      let hi ← clearBit b.hi (fd / 64)
      pure ⟨lo, hi, b.count - 1⟩

/-- The loop of `lowest_free`, from word `w` on. -/
def lowestLoop (b : FdBitmap) : ℕ → ℕ → Option ℕ
  | 0, _ => none
  | fuel + 1, w =>
    if w < b.lo.length then do
      let summary ← b.hi[w / 64]?
      let h := summary ||| low 64 (w % 64)
      if h = BitVec.allOnes 64 then
        b.lowestLoop fuel ((w / 64 + 1) * 64)
      else
        let w := w / 64 * 64 + (~~~h).ctz.toNat
        if b.lo.length ≤ w then
          some (b.lo.length * 64)
        else
          let word ← b.lo[w]?
          some (w * 64 + (~~~word).ctz.toNat)
    else
      some (b.lo.length * 64)

/-- The lowest number from `min` on that is not in use. -/
def lowestFree (b : FdBitmap) (min : ℕ) : Option ℕ :=
  match b.lo[min / 64]? with
  | none => some min
  | some x =>
    let word := x ||| low 64 (min % 64)
    if word ≠ BitVec.allOnes 64 then some (min / 64 * 64 + (~~~word).ctz.toNat)
    else b.lowestLoop (b.hi.length + 1) (min / 64 + 1)

/-- How many numbers below `limit` are in use. -/
def countBelow (b : FdBitmap) (limit : ℕ) : Option ℕ :=
  if b.lo.length * 64 ≤ limit then some b.count
  else do
    let x ← b.lo[limit / 64]?
    pure (((b.lo.take (limit / 64)).map fun x ↦ x.cpop.toNat).sum
      + (x &&& low 64 (limit % 64)).cpop.toNat)

/-! ## The set a bitmap stands for -/

/-- The bitmap stands for the set `S`. -/
structure Holds (b : FdBitmap) (S : Finset ℕ) : Prop where
  mem : ∀ fd, bit b.lo fd = true ↔ fd ∈ S
  full : ∀ w, bit b.hi w = true ↔ b.lo.getD w 0 = BitVec.allOnes 64
  length : b.hi.length = (b.lo.length + 63) / 64
  count : b.count = S.card

variable {b : FdBitmap} {S : Finset ℕ} {fd w : ℕ}

theorem empty_holds : empty.Holds ∅ where
  mem fd := by simp [bit, empty]
  full w := by
    rw [bit, empty, getD_nil, getD_nil, BitVec.ofNat_eq_ofNat, BitVec.getLsbD_zero]
    decide
  length := rfl
  count := rfl

theorem Holds.lt_of_mem (h : b.Holds S) (hfd : fd ∈ S) : fd < b.lo.length * 64 := by
  by_contra hge
  rw [← h.mem, bit_of_le (Nat.not_lt.1 hge)] at hfd
  cases hfd

/-- The members of a full word. -/
theorem Holds.mem_of_full (h : b.Holds S) (hw : bit b.hi w = true) (hlo : w * 64 ≤ fd)
    (hhi : fd < (w + 1) * 64) : fd ∈ S := by
  have hall := eq_allOnes_iff.1 ((h.full w).1 hw) (fd - w * 64) (by omega)
  rw [← bit_word (by omega), Nat.add_sub_cancel' hlo] at hall
  exact (h.mem fd).1 hall

theorem Holds.grown (h : b.Holds S) (w : ℕ) :
    (b.grown w).Holds S ∧ w < (b.grown w).lo.length := by
  rw [FdBitmap.grown]
  split_ifs with hle
  · have hhi : b.hi.length ≤ w / 64 + 1 := by
      rw [h.length]
      omega
    refine ⟨⟨fun fd ↦ ?_, fun v ↦ ?_, ?_, h.count⟩, ?_⟩
    · rw [bit_resize (by omega), h.mem]
    · rw [bit_resize hhi, getD_resize (by omega), h.full]
    · rw [length_resize hhi, length_resize (by omega)]
      omega
    · rw [length_resize (by omega)]
      exact Nat.lt_succ_self w
  · exact ⟨h, Nat.not_le.1 hle⟩

theorem bit_eq_of_word {x : BitVec 64} (hx : b.lo[fd / 64]? = some x) :
    x &&& BitVec.twoPow 64 (fd % 64) = 0#64 ↔ bit b.lo fd = false := by
  rw [and_twoPow_eq_zero (Nat.mod_lt _ (by decide)), bit, getD_eq_getElem?_getD, hx,
    getD_some]

/-! ## Opening and closing -/

/-- A word with one more bit, and its summary. -/
theorem Holds.summed {lo : List (BitVec 64)} (h : b.Holds S) (hw : fd / 64 < b.lo.length)
    (hnew : fd ∉ S) (hlen : lo.length = b.lo.length)
    (hbit : ∀ m, bit lo m = (bit b.lo m || decide (m = fd))) :
    ∃ b', FdBitmap.summed { b with lo := lo, count := b.count + 1 } (fd / 64) = some b' ∧
      b'.Holds (insert fd S) := by
  have hmem : ∀ m, bit lo m = true ↔ m ∈ insert fd S := by
    intro m
    rw [hbit, Bool.or_eq_true, decide_eq_true_eq, h.mem, Finset.mem_insert, or_comm]
  have hcount : b.count + 1 = (insert fd S).card := by
    rw [Finset.card_insert_of_notMem hnew, h.count]
  -- the other words are what they were
  have hother : ∀ v, v ≠ fd / 64 → lo.getD v 0 = b.lo.getD v 0 := by
    intro v hv
    apply BitVec.eq_of_getLsbD_eq
    intro i hi
    rw [← bit_word hi, ← bit_word hi, hbit, decide_eq_false (by omega), Bool.or_false]
  have hword : lo[fd / 64]? = some (lo.getD (fd / 64) 0) := by
    rw [getD_eq_getElem _ _ (by omega), getElem?_eq_getElem]
  -- and this one was not full before
  have hclear : bit b.hi (fd / 64) = false := by
    rw [Bool.eq_false_iff]
    intro hfull
    exact hnew (h.mem_of_full hfull (by omega) (by omega))
  rw [FdBitmap.summed, hword]
  dsimp only [bind_eq_bind, bind_some]
  split_ifs with hall
  · have hidx : fd / 64 / 64 < b.hi.length := by
      rw [h.length]
      omega
    obtain ⟨hi, hset, hhi, hbits⟩ := bit_of_setBit (by decide) hidx
    rw [hset]
    refine ⟨_, rfl, hmem, fun v ↦ ?_, by rw [hhi, h.length, hlen], hcount⟩
    rw [hbits, Bool.or_eq_true, decide_eq_true_eq]
    by_cases hv : v = fd / 64
    · simp only [hv, or_true, hall]
    · rw [or_iff_left hv, hother v hv, h.full]
  · refine ⟨_, rfl, hmem, fun v ↦ ?_, by rw [hlen, h.length], hcount⟩
    by_cases hv : v = fd / 64
    · rw [hv]
      exact iff_of_false (by rw [hclear]; decide) hall
    · rw [hother v hv, h.full]

theorem set_holds (h : b.Holds S) (fd : ℕ) : ∃ b', b.set fd = some b' ∧ b'.Holds (insert fd S) := by
  obtain ⟨hgrown, hw⟩ := h.grown (fd / 64)
  rw [FdBitmap.set]
  generalize b.grown (fd / 64) = b at hgrown hw
  have hx := getElem?_eq_getElem hw
  rw [setWord, hx]
  dsimp only [bind_eq_bind, bind_some]
  split_ifs with hzero
  · rw [bit_eq_of_word hx] at hzero
    obtain ⟨lo, hset, hlen, hbit⟩ := bit_of_setBit (by decide) hw
    rw [hset]
    refine hgrown.summed hw (fun hmem ↦ ?_) hlen hbit
    rw [← hgrown.mem, hzero] at hmem
    cases hmem
  · rw [bit_eq_of_word hx, Bool.not_eq_false, hgrown.mem] at hzero
    exact ⟨b, rfl, by rwa [Finset.insert_eq_of_mem hzero]⟩

theorem clear_holds (h : b.Holds S) (fd : ℕ) :
    ∃ b', b.clear fd = some b' ∧ b'.Holds (S.erase fd) := by
  rw [clear]
  cases hx : b.lo[fd / 64]? with
  | none =>
    have hlen := getElem?_eq_none_iff.1 hx
    refine ⟨b, rfl, ?_⟩
    rwa [Finset.erase_eq_of_notMem]
    intro hmem
    have := h.lt_of_mem hmem
    omega
  | some x =>
    obtain ⟨hw, -⟩ := List.getElem?_eq_some_iff.1 hx
    dsimp only
    split_ifs with hzero hcount
    · rw [bit_eq_of_word hx, ← Bool.not_eq_true, h.mem] at hzero
      exact ⟨b, rfl, by rwa [Finset.erase_eq_of_notMem hzero]⟩
    · rw [bit_eq_of_word hx, Bool.not_eq_false, h.mem] at hzero
      rw [h.count, Finset.card_eq_zero] at hcount
      rw [hcount] at hzero
      cases hzero
    · rw [bit_eq_of_word hx, Bool.not_eq_false, h.mem] at hzero
      obtain ⟨lo, hlo, hlen, hbit⟩ := bit_of_clearBit (by decide) hw
      have hidx : fd / 64 / 64 < b.hi.length := by
        rw [h.length]
        omega
      obtain ⟨hi, hhi, hhilen, hhibit⟩ := bit_of_clearBit (by decide) hidx
      rw [hlo, hhi]
      refine ⟨_, rfl, fun m ↦ ?_, fun v ↦ ?_, by rw [hhilen, hlen, h.length], ?_⟩
      · rw [hbit, Bool.and_eq_true, decide_eq_true_eq, h.mem, Finset.mem_erase, and_comm]
      · rw [hhibit, Bool.and_eq_true, decide_eq_true_eq, h.full]
        by_cases hv : v = fd / 64
        · -- the word has a clear bit now
          refine iff_of_false (fun hne ↦ hne.2 hv) fun hall ↦ ?_
          have hone := eq_allOnes_iff.1 hall (fd % 64) (Nat.mod_lt _ (by decide))
          rw [← bit_word (Nat.mod_lt _ (by decide)), hbit,
            decide_eq_false (by omega), Bool.and_false] at hone
          cases hone
        · rw [and_iff_left hv]
          refine iff_of_eq (congrArg (· = _) (BitVec.eq_of_getLsbD_eq fun i hi ↦ ?_))
          rw [← bit_word hi, ← bit_word hi, hbit, decide_eq_true (by omega), Bool.and_true]
      · rw [Finset.card_erase_of_mem hzero, h.count]

/-! ## The lowest free number -/

/-- The lowest number from `min` on that is not in `S`. -/
def Lowest (S : Finset ℕ) (min n : ℕ) : Prop := IsLeast {n | min ≤ n ∧ n ∉ S} n

theorem Lowest.of_below {min n : ℕ} (hmin : min ≤ n) (hn : n ∉ S)
    (hbelow : ∀ fd, min ≤ fd → fd < n → fd ∈ S) : Lowest S min n := by
  refine ⟨⟨hmin, hn⟩, fun fd hfd ↦ ?_⟩
  by_contra hlt
  exact hfd.2 (hbelow fd hfd.1 (Nat.not_le.1 hlt))

/-- Past the last word nothing is open. -/
theorem Holds.lowest_end (h : b.Holds S) {min : ℕ} (hmin : min ≤ b.lo.length * 64)
    (hbelow : ∀ fd, min ≤ fd → fd < b.lo.length * 64 → fd ∈ S) :
    Lowest S min (b.lo.length * 64) := by
  refine .of_below hmin (fun hmem ↦ ?_) hbelow
  exact absurd (h.lt_of_mem hmem) (lt_irrefl _)

/-- A word that is not full has a free number, the first from `k` on. -/
theorem Holds.lowest_word (h : b.Holds S) (min : ℕ) {k : ℕ} {x : BitVec 64} (hk : k < 64)
    (hx : b.lo[w]? = some x) (hne : x ||| low 64 k ≠ BitVec.allOnes 64) (hmin : min ≤ w * 64 + k)
    (hbelow : ∀ fd, min ≤ fd → fd < w * 64 + k → fd ∈ S) :
    Lowest S min (w * 64 + (~~~(x ||| low 64 k)).ctz.toNat) := by
  obtain ⟨hle, hlt, hclear, hones⟩ := clear_ctz_not hk hne
  generalize (~~~(x ||| low 64 k)).ctz.toNat = p at hle hlt hclear hones
  have hword : ∀ i < 64, bit b.lo (w * 64 + i) = x.getLsbD i := by
    intro i hi
    rw [bit_word hi, getD_eq_getElem?_getD, hx, getD_some]
  refine .of_below (by omega) (fun hmem ↦ ?_) fun fd hfd hfdp ↦ ?_
  · rw [← h.mem, hword p hlt, hclear] at hmem
    cases hmem
  · rcases Nat.lt_or_ge fd (w * 64 + k) with hfdk | hfdk
    · exact hbelow fd hfd hfdk
    · rw [← h.mem, ← Nat.add_sub_cancel' (by omega : w * 64 ≤ fd), hword _ (by omega)]
      exact hones _ (by omega) (by omega)

/-- Full words, one summary bit each. -/
theorem Holds.mem_of_full_words (h : b.Holds S) {u v : ℕ}
    (hfull : ∀ i, u ≤ i → i < v → bit b.hi i = true) (hlo : u * 64 ≤ fd) (hhi : fd < v * 64) :
    fd ∈ S :=
  h.mem_of_full (w := fd / 64) (hfull _ (by omega) (by omega)) (by omega) (by omega)

/-- The loop: the numbers before word `w` have been looked at. -/
theorem lowestLoop_lowest (h : b.Holds S) {fuel min : ℕ} (hw : w ≤ b.lo.length)
    (hfuel : b.hi.length < fuel + w / 64) (hmin : min ≤ w * 64)
    (hbelow : ∀ fd, min ≤ fd → fd < w * 64 → fd ∈ S) :
    ∃ n, b.lowestLoop fuel w = some n ∧ Lowest S min n := by
  have hhilen := h.length
  induction fuel generalizing w with
  | zero => omega
  | succ fuel ih =>
    rw [lowestLoop]
    split_ifs with hlt
    swap
    · obtain rfl : w = b.lo.length := by omega
      exact ⟨_, rfl, h.lowest_end hmin hbelow⟩
    have hidx : w / 64 < b.hi.length := by omega
    rw [getElem?_eq_getElem hidx]
    dsimp only [bind_eq_bind, bind_some]
    have hsummary : ∀ i < 64, bit b.hi (w / 64 * 64 + i) = b.hi[w / 64].getLsbD i := by
      intro i hi
      rw [bit_word hi, getD_eq_getElem _ _ hidx]
    -- with the words up to `v` full, so are the numbers
    have hskip : ∀ v, (∀ i, w ≤ i → i < v → bit b.hi i = true) →
        ∀ fd, min ≤ fd → fd < v * 64 → fd ∈ S := by
      intro v hfull fd hfd hfdv
      rcases Nat.lt_or_ge fd (w * 64) with hfdw | hfdw
      · exact hbelow fd hfd hfdw
      · exact h.mem_of_full_words hfull hfdw hfdv
    by_cases hall : b.hi[w / 64] ||| low 64 (w % 64) = BitVec.allOnes 64
    · rw [if_pos hall]
      have hones : ∀ i, w ≤ i → i < (w / 64 + 1) * 64 → bit b.hi i = true := by
        intro i hi hiw
        have := getLsbD_of_full (Nat.mod_lt _ (by decide)) hall (i := i - w / 64 * 64) (by omega)
          (by omega)
        rwa [← hsummary _ (by omega), Nat.add_sub_cancel' (by omega)] at this
      refine ih ?_ (by omega) (by omega) (hskip _ hones)
      -- a word past the end is not full
      by_contra hend
      have hlast := (h.full b.lo.length).1 (hones _ (by omega) (by omega))
      rw [getD_eq_default _ _ le_rfl] at hlast
      revert hlast
      decide
    · rw [if_neg hall]
      obtain ⟨hle, hlt', hclear, hlow⟩ := clear_ctz_not (Nat.mod_lt w (by decide)) hall
      generalize (~~~(b.hi[w / 64] ||| low 64 (w % 64))).ctz.toNat = p at hle hlt' hclear hlow
      have hones : ∀ i, w ≤ i → i < w / 64 * 64 + p → bit b.hi i = true := by
        intro i hi hip
        rw [← Nat.add_sub_cancel' (by omega : w / 64 * 64 ≤ i), hsummary _ (by omega)]
        exact hlow _ (by omega) (by omega)
      split_ifs with hpast
      · have hend : ∀ i, w ≤ i → i < b.lo.length → bit b.hi i = true := fun i hi hlt ↦
          hones i hi (by omega)
        exact ⟨_, rfl, h.lowest_end (by omega) (hskip _ hend)⟩
      · have hin : w / 64 * 64 + p < b.lo.length := Nat.not_le.1 hpast
        have hx := getElem?_eq_getElem hin
        have hne : b.lo[w / 64 * 64 + p] ||| low 64 0 ≠ BitVec.allOnes 64 := by
          rw [low_zero, BitVec.or_zero]
          intro hfull
          have hset := (h.full (w / 64 * 64 + p)).2
            (by rw [getD_eq_getElem _ _ hin, hfull])
          rw [hsummary p hlt', hclear] at hset
          cases hset
        have hlowest := h.lowest_word min (by decide) hx hne (by omega) fun fd hfd hlt ↦
          hskip _ hones fd hfd (by omega)
        rw [low_zero, BitVec.or_zero] at hlowest
        rw [hx]
        exact ⟨_, rfl, hlowest⟩

theorem lowestFree_lowest (h : b.Holds S) (min : ℕ) :
    ∃ n, b.lowestFree min = some n ∧ Lowest S min n := by
  rw [lowestFree]
  cases hx : b.lo[min / 64]? with
  | none =>
    have hlen := getElem?_eq_none_iff.1 hx
    refine ⟨min, rfl, .of_below le_rfl (fun hmem ↦ ?_) fun fd hfd hlt ↦ by omega⟩
    have := h.lt_of_mem hmem
    omega
  | some x =>
    obtain ⟨hw, rfl⟩ := List.getElem?_eq_some_iff.1 hx
    dsimp only
    split_ifs with hne
    · exact ⟨_, rfl, h.lowest_word min (Nat.mod_lt _ (by decide)) hx hne (by omega)
        fun fd hfd hlt ↦ by omega⟩
    · rw [not_not] at hne
      refine lowestLoop_lowest h hw (by omega) (by omega) fun fd hfd hlt ↦ ?_
      have hone := getLsbD_of_full (Nat.mod_lt _ (by decide)) hne (i := fd % 64) (by omega)
        (Nat.mod_lt _ (by decide))
      rw [← h.mem, bit, show fd / 64 = min / 64 by omega, getD_eq_getElem _ _ hw]
      exact hone

/-! ## Counting -/

theorem countBelow_eq (h : b.Holds S) (limit : ℕ) :
    b.countBelow limit = some (S.filter (· < limit)).card := by
  have hcount : (S.filter (· < limit)).card = Nat.count (fun fd ↦ bit b.lo fd = true) limit := by
    rw [Nat.count_eq_card_filter_range]
    congr 1
    ext fd
    rw [Finset.mem_filter, Finset.mem_filter, Finset.mem_range, h.mem, and_comm]
  rw [countBelow]
  split_ifs with hlimit
  · rw [h.count, Finset.filter_true_of_mem]
    exact fun fd hfd ↦ (h.lt_of_mem hfd).trans_le hlimit
  · have hx := getElem?_eq_getElem (l := b.lo) (i := limit / 64) (by omega)
    rw [hcount, count_bit (by decide) hx, hx]
    rfl

/-! ## Any sequence of calls -/

/-- A call that changes the bitmap. -/
inductive Call
  | set (fd : ℕ)
  | clear (fd : ℕ)
  deriving DecidableEq

def step (b : FdBitmap) : Call → Option FdBitmap
  | .set fd => b.set fd
  | .clear fd => b.clear fd

/-- The plain definition: a set of numbers. -/
def members : Finset ℕ → List Call → Finset ℕ
  | S, [] => S
  | S, .set fd :: calls => members (insert fd S) calls
  | S, .clear fd :: calls => members (S.erase fd) calls

theorem run_holds (h : b.Holds S) (calls : List Call) :
    ∃ b', Machine.run step b calls = some b' ∧ b'.Holds (members S calls) := by
  induction calls generalizing b S with
  | nil => exact ⟨b, rfl, h⟩
  | cons call calls ih =>
    cases call with
    | set fd =>
      obtain ⟨b', hset, h'⟩ := set_holds h fd
      obtain ⟨b'', hrun, h''⟩ := ih h'
      exact ⟨b'', Machine.run_cons.2 ⟨b', hset, hrun⟩, h''⟩
    | clear fd =>
      obtain ⟨b', hclear, h'⟩ := clear_holds h fd
      obtain ⟨b'', hrun, h''⟩ := ih h'
      exact ⟨b'', Machine.run_cons.2 ⟨b', hclear, hrun⟩, h''⟩

/-- **The bitmap is a set of numbers**: after any calls, no index and no count having gone wrong,
the lowest free number, the numbers below a limit and their total are those of the plain set. -/
theorem run_agrees (calls : List Call) : ∃ b, Machine.run step empty calls = some b ∧
    (∀ min, ∃ n, b.lowestFree min = some n ∧ Lowest (members ∅ calls) min n) ∧
    (∀ limit, b.countBelow limit = some ((members ∅ calls).filter (· < limit)).card) ∧
    b.count = (members ∅ calls).card := by
  obtain ⟨b, hrun, h⟩ := run_holds empty_holds calls
  exact ⟨b, hrun, lowestFree_lowest h, countBelow_eq h, h.count⟩

end FdBitmap
end OxideBSD.Fd
