import Mathlib

/-!
# Bytes by address

The contents of a buffer or of a disk are a function from addresses to bytes.

* `toLe` and `ofLe`: numbers as bytes, least significant first.
* `bytes b a n` are the `n` bytes at `a`, and `le b a n` is their little-endian number.
* `puts b fs` writes fields one after the other, each the bytes at an address.
* `puts_of_mem`, `le_puts`: of fields that do not overlap, each is read back.
-/

set_option autoImplicit false

namespace OxideBSD.Bytes

open List

variable {b b' : ℕ → UInt8} {a a' n : ℕ} {fs : List (ℕ × List UInt8)} {xs : List UInt8}

/-- The `w` low bytes of `v`, least significant first. -/
def toLe : Nat → Nat → List UInt8
  | 0, _ => []
  | w + 1, v => UInt8.ofNat v :: toLe w (v / 256)

/-- The number whose bytes, least significant first, are given. -/
def ofLe : List UInt8 → Nat
  | [] => 0
  | x :: xs => x.toNat + 256 * ofLe xs

/-- The `n` bytes at `a`. -/
def bytes (b : ℕ → UInt8) (a n : ℕ) : List UInt8 := (List.range n).map fun i ↦ b (a + i)

/-- The little-endian number in the `n` bytes at `a`. -/
def le (b : ℕ → UInt8) (a n : ℕ) : ℕ := ofLe (bytes b a n)

@[simp] theorem length_bytes (b : ℕ → UInt8) (a n : ℕ) : (bytes b a n).length = n := by
  simp [bytes]

theorem ofLe_lt (xs : List UInt8) : ofLe xs < 256 ^ xs.length := by
  induction xs with
  | nil => exact Nat.one_pos
  | cons x xs ih =>
    have hbyte := x.toNat_lt
    rw [ofLe, length_cons]
    omega

theorem le_lt (b : ℕ → UInt8) (a n : ℕ) : le b a n < 256 ^ n := by
  have hlt := ofLe_lt (bytes b a n)
  rwa [length_bytes] at hlt

theorem bytes_congr (h : ∀ i < n, b (a + i) = b' (a' + i)) : bytes b a n = bytes b' a' n :=
  map_congr_left fun i hi ↦ h i (mem_range.1 hi)

theorem bytes_add (b : ℕ → UInt8) (a n k : ℕ) :
    bytes b a (n + k) = bytes b a n ++ bytes b (a + n) k := by
  simp [bytes, range_add, Nat.add_assoc, Function.comp_def]

theorem le_congr (h : ∀ i < n, b (a + i) = b' (a' + i)) : le b a n = le b' a' n :=
  congrArg ofLe (bytes_congr h)

/-- Inside a range of equal bytes. -/
theorem congr_within {m k : ℕ} (h : ∀ i < m, b (a + i) = b' (a' + i)) (hk : k + n ≤ m) :
    ∀ i < n, b (a + k + i) = b' (a' + k + i) := by
  intro i hi
  rw [Nat.add_assoc, Nat.add_assoc]
  exact h (k + i) (by omega)

/-! ## Fields -/

/-- `b` with the bytes `xs` at `a`. -/
def put (b : ℕ → UInt8) (a : ℕ) (xs : List UInt8) : ℕ → UInt8 :=
  fun i ↦ if a ≤ i ∧ i < a + xs.length then xs.getD (i - a) 0 else b i

/-- `b` with the fields `fs` written in turn. -/
def puts (b : ℕ → UInt8) (fs : List (ℕ × List UInt8)) : ℕ → UInt8 :=
  fs.foldl (fun b f ↦ put b f.1 f.2) b

/-- Two fields that do not overlap. -/
def Apart (f g : ℕ × List UInt8) : Prop := f.1 + f.2.length ≤ g.1 ∨ g.1 + g.2.length ≤ f.1

/-- An address no field covers keeps its byte. -/
theorem puts_of_outside {i : ℕ} (h : ∀ f ∈ fs, i < f.1 ∨ f.1 + f.2.length ≤ i) :
    puts b fs i = b i := by
  induction fs generalizing b with
  | nil => rfl
  | cons f fs ih =>
    rw [puts, foldl_cons, ← puts, ih fun g hg ↦ h g (mem_cons_of_mem f hg)]
    exact if_neg (by have := h f mem_cons_self; omega)

/-- A field that no other overlaps is read back. -/
theorem puts_of_mem (hfs : fs.Pairwise Apart) (hmem : (a, xs) ∈ fs) {i : ℕ} (hi : i < xs.length) :
    puts b fs (a + i) = xs.getD i 0 := by
  induction fs generalizing b with
  | nil => cases hmem
  | cons f fs ih =>
    obtain ⟨hf, hfs⟩ := pairwise_cons.1 hfs
    rcases mem_cons.1 hmem with rfl | hmem
    · rw [puts, foldl_cons, ← puts, puts_of_outside fun g hg ↦ ?_]
      · rw [put, if_pos (by dsimp only; omega), Nat.add_sub_cancel_left]
      · have := hf g hg
        rw [Apart] at this
        dsimp only at this
        omega
    · exact ih hfs hmem

theorem bytes_puts (hfs : fs.Pairwise Apart) (hmem : (a, xs) ∈ fs) :
    bytes (puts b fs) a xs.length = xs := by
  refine ext_getElem (length_bytes _ _ _) fun i _ hi ↦ ?_
  simp only [bytes, getElem_map, getElem_range, puts_of_mem hfs hmem hi,
    getD_eq_getElem _ 0 hi]

@[simp] theorem length_toLe (w v : ℕ) : (toLe w v).length = w := by
  induction w generalizing v with
  | zero => rfl
  | succ w ih => rw [toLe, length_cons, ih]

theorem ofLe_toLe (w : ℕ) {v : ℕ} (hv : v < 256 ^ w) : ofLe (toLe w v) = v := by
  induction w generalizing v with
  | zero => exact (Nat.lt_one_iff.1 hv).symm
  | succ w ih =>
    have hdiv : v / 256 < 256 ^ w := Nat.div_lt_of_lt_mul (by rwa [← Nat.pow_succ'])
    have hbyte : (UInt8.ofNat v).toNat = v % 256 := UInt8.toNat_ofNat'
    rw [toLe, ofLe, ih hdiv]
    exact Nat.mod_add_div v 256

/-- A number in a field is read back. -/
theorem le_puts (hfs : fs.Pairwise Apart) {w v : ℕ} (hmem : (a, toLe w v) ∈ fs)
    (hv : v < 256 ^ w) : le (puts b fs) a w = v := by
  have hbytes := bytes_puts (b := b) hfs hmem
  rw [length_toLe] at hbytes
  rw [le, hbytes, ofLe_toLe w hv]

end OxideBSD.Bytes
