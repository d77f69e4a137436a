import Mathlib

/-!
# The time fields of a crontab

`Field::parse` of `lib/libcron/src/table.rs`: a field is a list of elements `*`, `n` or `a-b`, each
with an optional `/step`, and is kept as a set of bits.  The numbers of an element are visited by a
loop that adds the step, any `u32` but 0, to a `u32`; cron is built with `--release`, where that
addition wraps around.

Parsing is two things here.  Reading an element (`Field.element`) gives its first number, its last
and its step; what those should be is said apart from the code by `Field.Says`, in terms of how the
text is put together.  Visiting the numbers (`stepLoop`) has fuel, and `stepSums` are the sums it
computes, before they are cut to 32 bits.

* `element_spec`: what is read from an element is what it says.
* `stepLoop_isSome`: the loop over the numbers of an element ends, wrapping around or not.
* `testBit_stepLoop`, `stepSums_lt_iff`: what it adds to the set, and when no sum is too large.
* `parse_exact_iff`: so a field is the union of its elements, computed without overflow, if and only
  if the first step of no element goes past `2 ^ 32`.
-/

set_option autoImplicit false

namespace OxideBSD.Cron

open List

/-- `Field`: a kind of time field, its bounds and its names. -/
structure Field where
  what : String
  lo : ℕ
  hi : ℕ
  names : List (List Char)
  lo_le : lo ≤ hi
  hi_lt : hi < 64

/-- `MINUTE`. -/
def minute : Field := ⟨"minute", 0, 59, [], by decide, by decide⟩

/-- The number that decimal digits stand for. -/
def value (s : List Char) : ℕ := s.foldl (fun n c ↦ 10 * n + (c.toNat - '0'.toNat)) 0

/-- `str::parse::<u32>`. -/
def parseU32 (s : List Char) : Option ℕ :=
  let digits := if s.head? = some '+' then s.tail else s
  if digits ≠ [] ∧ digits.all Char.isDigit ∧ value digits < 2 ^ 32 then some (value digits) else none

/-- `str::split_once`. -/
def splitOnce (c : Char) : List Char → Option (List Char × List Char)
  | [] => none
  | d :: s => if d = c then some ([], s) else (splitOnce c s).map fun (x, y) ↦ (d :: x, y)

/-- `str::eq_ignore_ascii_case`. -/
def eqIgnoreCase (s t : List Char) : Bool := s.map Char.toLower = t.map Char.toLower

/-- The loop over the numbers of an element, `n` wrapping around: cron is built with `--release`. -/
def stepLoop (b step : ℕ) : ℕ → ℕ → ℕ → Option ℕ
  | 0, _, _ => none
  | fuel + 1, n, bits =>
    if n ≤ b then stepLoop b step fuel ((n + step) % 2 ^ 32) (bits ||| 1 <<< n) else some bits

/-- The sums that the loop computes, as they are before they wrap around. -/
def stepSums (b step : ℕ) : ℕ → ℕ → List ℕ
  | 0, _ => []
  | fuel + 1, n =>
    if n ≤ b then (n + step) :: stepSums b step fuel ((n + step) % 2 ^ 32) else []

namespace Field

variable (f : Field)

/-- `Field::number`. -/
def number (s : List Char) : Except String ℕ :=
  let n := if s.all Char.isDigit ∧ s ≠ [] then parseU32 s
    else (f.names.findIdx? (eqIgnoreCase · s)).map (· + f.lo)
  match n with
  | some n =>
    if f.lo ≤ n ∧ n ≤ f.hi then .ok n
    else .error s!"{f.what} {n} is out of range {f.lo}-{f.hi}"
  | none => .error s!"bad {f.what} \"{String.ofList s}\""

/-- An element without its step, and the step. -/
def splitStep (elem : List Char) : Except String (List Char × Option ℕ) :=
  match splitOnce '/' elem with
  | some (r, st) =>
    match (parseU32 st).filter (0 < ·) with
    | some step => .ok (r, some step)
    | none => .error s!"bad step \"{String.ofList st}\" in the {f.what}"
  | none => .ok (elem, none)

/-- The first and the last number of an element. -/
def bounds (range : List Char) (step : Option ℕ) : Except String (ℕ × ℕ) :=
  if range = ['*'] then .ok (f.lo, f.hi) else
  match splitOnce '-' range with
  | some (a, b) =>
    (f.number a).bind fun a ↦ (f.number b).bind fun b ↦
      if a > b then .error s!"backwards range {String.ofList range} in the {f.what}" else .ok (a, b)
  | none => (f.number range).bind fun a ↦ .ok (a, if step.isSome then f.hi else a)

/-- What `parse` reads from an element: the first and the last number, and the step. -/
def element (elem : List Char) : Except String (ℕ × ℕ × ℕ) :=
  (f.splitStep elem).bind fun (range, step) ↦
    (f.bounds range step).bind fun (a, b) ↦ .ok (a, b, step.getD 1)

/-- The loop of `parse` over the elements. -/
def parseLoop (fuel : ℕ) : List (List Char) → ℕ → Option (Except String ℕ)
  | [], bits => some (.ok bits)
  | elem :: elems, bits =>
    match f.element elem with
    | .error e => some (.error e)
    | .ok (a, b, step) => (stepLoop b step fuel a bits).bind (parseLoop fuel elems)

/-- `Field::parse`.  `none` is a loop that has not ended after `fuel` rounds. -/
def parse (fuel : ℕ) (s : List Char) : Option (Except String (ℕ × Bool)) :=
  (f.parseLoop fuel (s.splitOn ',') 0).map fun r ↦ r.map (·, s.head? = some '*')

/-- `s` is a number or a name of the field, and stands for `n`. -/
def Names (s : List Char) (n : ℕ) : Prop :=
  f.lo ≤ n ∧ n ≤ f.hi ∧ ((s.all Char.isDigit ∧ parseU32 s = some n) ∨
    ∃ i, f.names.findIdx? (eqIgnoreCase · s) = some i ∧ n = i + f.lo)

/-- `r` is `*`, `a-b` or `a`, the last going on to the end if it has a step. -/
def Bounds (r : List Char) (step : Option ℕ) (a b : ℕ) : Prop :=
  (r = ['*'] ∧ a = f.lo ∧ b = f.hi) ∨
  (∃ x y, r = x ++ '-' :: y ∧ f.Names x a ∧ f.Names y b ∧ a ≤ b) ∨
  (f.Names r a ∧ b = if step.isSome then f.hi else a)

/-- The element says: from `a` to `b`, by `step`. -/
def Says (elem : List Char) : ℕ × ℕ × ℕ → Prop
  | (a, b, step) => (f.Bounds elem none a b ∧ step = 1) ∨
    ∃ r st, elem = r ++ '/' :: st ∧ parseU32 st = some step ∧ 0 < step ∧ f.Bounds r (some step) a b

end Field

/-- `n` is one of `a`, `a + step`, … not above `b`. -/
def Hits (n : ℕ) : ℕ × ℕ × ℕ → Prop
  | (a, b, step) => (∃ k, n = a + k * step) ∧ n ≤ b

variable {f : Field} {s x y : List Char} {c : Char} {a b n m step bits bits' fuel : ℕ}

/-! ## What an element says -/

theorem ok_of_bind {ε α β : Type} {e : Except ε α} {g : α → Except ε β} {v : β}
    (h : e.bind g = .ok v) : ∃ u, e = .ok u ∧ g u = .ok v := by
  cases e with
  | error => cases h
  | ok u => exact ⟨u, rfl, h⟩

theorem eq_of_splitOnce (h : splitOnce c s = some (x, y)) : s = x ++ c :: y := by
  induction s generalizing x with
  | nil => cases h
  | cons d s ih =>
    rw [splitOnce] at h
    split_ifs at h with hd
    · cases h
      rw [hd, nil_append]
    · obtain ⟨⟨x, _⟩, hs, ⟨⟩⟩ := Option.map_eq_some_iff.mp h
      rw [ih hs, cons_append]

theorem parseU32_lt (h : parseU32 s = some n) : n < 2 ^ 32 := by
  obtain ⟨hlt, h⟩ := Option.ite_none_right_eq_some.mp h
  cases h
  exact hlt.2.2

theorem names_of_number (h : f.number s = .ok n) : f.Names s n := by
  simp only [Field.number] at h
  split at h <;> [skip; cases h]
  next k hk =>
  split_ifs at h with hrange
  cases h
  refine ⟨hrange.1, hrange.2, ?_⟩
  split_ifs at hk with hd
  · exact .inl ⟨hd.1, hk⟩
  · obtain ⟨i, hi, rfl⟩ := Option.map_eq_some_iff.mp hk
    exact .inr ⟨i, hi, rfl⟩

theorem bounds_spec {step : Option ℕ} (h : f.bounds s step = .ok (a, b)) :
    f.Bounds s step a b ∧ a ≤ b ∧ b ≤ f.hi := by
  rw [Field.bounds] at h
  by_cases hstar : s = ['*']
  · rw [if_pos hstar] at h
    cases h
    exact ⟨.inl ⟨hstar, rfl, rfl⟩, f.lo_le, Nat.le_refl _⟩
  rw [if_neg hstar] at h
  split at h
  · next x y hs =>
    obtain ⟨m, hx, h⟩ := ok_of_bind h
    obtain ⟨n, hy, h⟩ := ok_of_bind h
    split_ifs at h with hle
    cases h
    have hle : a ≤ b := by omega
    have hb := names_of_number hy
    exact ⟨.inr (.inl ⟨x, y, eq_of_splitOnce hs, names_of_number hx, hb, hle⟩), hle, hb.2.1⟩
  · obtain ⟨m, hx, ⟨⟩⟩ := ok_of_bind h
    have ha := names_of_number hx
    refine ⟨.inr (.inr ⟨ha, rfl⟩), ?_⟩
    split
    exacts [⟨ha.2.1, Nat.le_refl _⟩, ⟨Nat.le_refl _, ha.2.1⟩]

theorem element_spec (h : f.element s = .ok (a, b, step)) :
    f.Says s (a, b, step) ∧ a ≤ b ∧ b < 64 ∧ 0 < step ∧ step < 2 ^ 32 := by
  have hhi := f.hi_lt
  obtain ⟨⟨r, st⟩, hsplit, h⟩ := ok_of_bind h
  obtain ⟨p, hb, ⟨⟩⟩ := ok_of_bind h
  obtain ⟨hb, hab, hle⟩ := bounds_spec hb
  rw [Field.splitStep] at hsplit
  split at hsplit
  · next r st hs =>
    cases hstep : (parseU32 st).filter (0 < ·) with
    | none =>
      rw [hstep] at hsplit
      cases hsplit
    | some step =>
      rw [hstep] at hsplit
      cases hsplit
      obtain ⟨hst, hpos⟩ := Option.filter_eq_some_iff.mp hstep
      rw [decide_eq_true_iff] at hpos
      exact ⟨.inr ⟨_, st, eq_of_splitOnce hs, hst, hpos, hb⟩, hab, by omega, hpos, parseU32_lt hst⟩
  · cases hsplit
    exact ⟨.inl ⟨hb, rfl⟩, hab, by omega, by decide, by decide⟩

/-! ## The loop over an element -/

/-- A small step goes up to `b`, and one that wraps around goes down to 0. -/
theorem stepLoop_isSome (hb : b < 64) (hpos : 0 < step) (hlt : step < 2 ^ 32) (h0 : 0 < fuel)
    (hup : step < 2 ^ 31 → b + 1 < fuel + n) (hdown : 2 ^ 31 ≤ step → n ≤ b → n + 1 < fuel) :
    (stepLoop b step fuel n bits).isSome := by
  induction fuel generalizing n bits with
  | zero => omega
  | succ fuel ih =>
    rw [stepLoop]
    split_ifs with hn
    · exact ih (by omega) (by omega) (by omega)
    · rfl

theorem testBit_stepLoop (hb : b < 64) (hlt : n ≤ b → n + step < 2 ^ 32)
    (h : stepLoop b step fuel n bits = some bits') :
    bits'.testBit m ↔ bits.testBit m ∨ Hits m (n, b, step) := by
  induction fuel generalizing n bits with
  | zero => cases h
  | succ fuel ih =>
    rw [stepLoop] at h
    split_ifs at h with hn
    · have hbit : (bits ||| 1 <<< n).testBit m ↔ bits.testBit m ∨ n = m := by
        simp [Nat.one_shiftLeft, Nat.testBit_two_pow]
      have hnext : Hits m (n, b, step) ↔ n = m ∨ Hits m (n + step, b, step) := by
        constructor
        · rintro ⟨⟨k, rfl⟩, hle⟩
          cases k with
          | zero => simp
          | succ k => exact .inr ⟨⟨k, by rw [Nat.succ_mul]; omega⟩, hle⟩
        · rintro (rfl | ⟨⟨k, rfl⟩, hle⟩)
          · exact ⟨⟨0, by simp⟩, hn⟩
          · exact ⟨⟨k + 1, by rw [Nat.succ_mul]; omega⟩, hle⟩
      rw [Nat.mod_eq_of_lt (hlt hn)] at h
      rw [ih (by omega) h, hbit, hnext, or_assoc]
    · cases h
      have hmiss : ¬ Hits m (n, b, step) := by
        rintro ⟨⟨k, rfl⟩, hle⟩
        omega
      simp [hmiss]

/-- Only the first sum can be too large: for a second one, `n + step` was not above `b`. -/
theorem stepSums_lt (hb : b < 64) (hlt : n ≤ b → n + step < 2 ^ 32) {t : ℕ}
    (ht : t ∈ stepSums b step fuel n) : t < 2 ^ 32 := by
  induction fuel generalizing n with
  | zero => cases ht
  | succ fuel ih =>
    rw [stepSums] at ht
    split_ifs at ht with hn
    · rw [Nat.mod_eq_of_lt (hlt hn)] at ht
      obtain rfl | ht := mem_cons.mp ht
      · exact hlt hn
      · exact ih (by omega) ht
    · cases ht

theorem stepSums_lt_iff (hb : b < 64) (hab : a ≤ b) :
    (∀ t ∈ stepSums b step (fuel + 1) a, t < 2 ^ 32) ↔ a + step < 2 ^ 32 := by
  refine ⟨fun h ↦ h _ ?_, fun hlt t ht ↦ stepSums_lt hb (fun _ ↦ hlt) ht⟩
  rw [stepSums, if_pos hab]
  exact mem_cons_self

/-! ## A field -/

/-- No sum is too large in any loop of `parse` over elements that were read as `ps`. -/
def NoOverflow (fuel : ℕ) (ps : List (ℕ × ℕ × ℕ)) : Prop :=
  ∀ p ∈ ps, ∀ t ∈ stepSums p.2.1 p.2.2 fuel p.1, t < 2 ^ 32

theorem parseLoop_spec (f : Field) (fuel : ℕ) (elems : List (List Char)) (bits : ℕ) :
    ∃ r, f.parseLoop (fuel + 65) elems bits = some r ∧ ∀ bits', r = .ok bits' →
      ∃ ps, Forall₂ f.Says elems ps ∧
        (NoOverflow (fuel + 65) ps ↔ ∀ p ∈ ps, p.1 + p.2.2 < 2 ^ 32) ∧
        (NoOverflow (fuel + 65) ps →
          ∀ n, bits'.testBit n ↔ bits.testBit n ∨ ∃ p ∈ ps, Hits n p) := by
  induction elems generalizing bits with
  | nil => exact ⟨_, rfl, fun _ h ↦ ⟨[], .nil, by simp [NoOverflow], by cases h; simp⟩⟩
  | cons elem elems ih =>
    rw [Field.parseLoop]
    cases he : f.element elem with
    | error e => exact ⟨_, rfl, nofun⟩
    | ok p =>
      obtain ⟨a, b, step⟩ := p
      obtain ⟨hsaid, hab, hb, hpos, hlt⟩ := element_spec he
      have hsome : (stepLoop b step (fuel + 65) a bits).isSome :=
        stepLoop_isSome hb hpos hlt (by omega) (by omega) (by omega)
      obtain ⟨bits₁, hloop⟩ := Option.isSome_iff_exists.mp hsome
      obtain ⟨r, hr, hrest⟩ := ih bits₁
      refine ⟨r, by simp [hloop, hr], fun bits' h ↦ ?_⟩
      obtain ⟨ps, hps, hiff, hbits⟩ := hrest bits' h
      have hsums := @stepSums_lt_iff a b step (fuel + 64) hb hab
      refine ⟨(a, b, step) :: ps, .cons hsaid hps, ?_, fun hno n ↦ ?_⟩
      · rw [NoOverflow, forall_mem_cons, forall_mem_cons, hsums]
        exact and_congr_right fun _ ↦ hiff
      · obtain ⟨hp, hno⟩ := forall_mem_cons.mp hno
        rw [hbits hno, testBit_stepLoop hb (fun _ ↦ hsums.mp hp) hloop, or_assoc]
        simp

/-- **Every field is read to its end, and what it gives is what its elements say, computed without
overflow, if and only if the first step of none goes past `2 ^ 32`.** -/
theorem parse_exact_iff (f : Field) (fuel : ℕ) (s : List Char) :
    ∃ r, f.parse (fuel + 65) s = some r ∧ ∀ bits star, r = .ok (bits, star) →
      ∃ ps, Forall₂ f.Says (s.splitOn ',') ps ∧
        (((∀ n, bits.testBit n ↔ ∃ p ∈ ps, Hits n p) ∧ NoOverflow (fuel + 65) ps) ↔
          ∀ p ∈ ps, p.1 + p.2.2 < 2 ^ 32) := by
  obtain ⟨r, hr, h⟩ := parseLoop_spec f fuel (s.splitOn ',') 0
  refine ⟨_, by rw [Field.parse, hr, Option.map_some], fun bits star hok ↦ ?_⟩
  cases r with
  | error e => cases hok
  | ok bits =>
    cases hok
    obtain ⟨ps, hps, hiff, hbits⟩ := h bits rfl
    refine ⟨ps, hps, fun hall ↦ hiff.mp hall.2, fun hlt ↦ ?_⟩
    have hno := hiff.mpr hlt
    exact ⟨by simpa using hbits hno, hno⟩

/-- The step from 5 wraps around to 4, and so on down to 0. -/
theorem parse_wraps : minute.parse 65 "5/4294967295".toList = some (.ok (0b111111, false)) ∧
    minute.element "5/4294967295".toList = .ok (5, 59, 2 ^ 32 - 1) ∧
    ¬ Hits 4 (5, 59, 2 ^ 32 - 1) := by
  refine ⟨by decide +kernel, by decide +kernel, ?_⟩
  rintro ⟨⟨k, hk⟩, -⟩
  omega

end OxideBSD.Cron
