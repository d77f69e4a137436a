import Mathlib

/-!
# Tables that refer to objects

A finite table from keys to objects, as the descriptor table of a kernel is: `refsTo t v` is the
number of keys that refer to `v`.  What entering and removing a key does to it is settled by
`refsTo_insert` and `refsTo_erase`; a key refers to `v` only if `v` is referred to
(`refsTo_pos_of_lookup`).  `tally t p` counts the keys that refer to something with the property `p`.
-/

set_option autoImplicit false

namespace OxideBSD.References

open List AList

section Tally

variable {κ ν : Type}

/-- How many keys refer to something with the property `p`. -/
def tally (t : AList fun _ : κ ↦ ν) (p : ν → Bool) : Nat := t.entries.countP fun e ↦ p e.2

variable [DecidableEq κ] {t : AList fun _ : κ ↦ ν} {k : κ}

theorem tally_insert (h : t.lookup k = none) (v : ν) (p : ν → Bool) :
    tally (t.insert k v) p = tally t p + if p v then 1 else 0 := by
  rw [tally, entries_insert_of_notMem (lookup_eq_none.1 h), countP_cons, tally]

theorem tally_erase {v : ν} (h : t.lookup k = some v) (p : ν → Bool) :
    tally (t.erase k) p + (if p v then 1 else 0) = tally t p := by
  have hmem : k ∈ t.entries.keys := mem_keys.1 (lookup_isSome.1 (by rw [h]; rfl))
  obtain ⟨v', l₁, l₂, -, hentries, herase⟩ := exists_of_kerase hmem
  have hv : v' = v := by
    have hlookup : v' ∈ t.lookup k := mem_lookup_iff.2 (by rw [hentries]; simp)
    rw [h] at hlookup
    exact (Option.some.inj hlookup).symm
  have hcount : (t.erase k).entries = l₁ ++ l₂ := herase
  rw [tally, tally, hcount, hentries, countP_append, countP_append, countP_cons, hv]
  dsimp only
  omega

theorem tally_erase_of_none (h : t.lookup k = none) (p : ν → Bool) :
    tally (t.erase k) p = tally t p := by
  have hentries : (t.erase k).entries = t.entries :=
    kerase_of_notMem_keys (lookup_eq_none.1 h)
  rw [tally, hentries, tally]

/-- A key entered, whatever it referred to before. -/
theorem tally_put (t : AList fun _ : κ ↦ ν) (k : κ) (v : ν) (p : ν → Bool) :
    tally (t.insert k v) p = tally (t.erase k) p + if p v then 1 else 0 := by
  rw [tally, entries_insert, countP_cons]
  rfl

/-- What a key refers to counts. -/
theorem tally_pos_of_lookup {v : ν} (h : t.lookup k = some v) {p : ν → Bool} (hp : p v = true) :
    0 < tally t p := by
  rw [← tally_erase h p, if_pos hp]
  omega

end Tally

variable {κ ν : Type} [DecidableEq ν]

/-- How many keys refer to `v`. -/
def refsTo (t : AList fun _ : κ ↦ ν) (v : ν) : Nat := t.entries.countP fun e ↦ e.2 = v

theorem refsTo_eq_tally (t : AList fun _ : κ ↦ ν) (v : ν) :
    refsTo t v = tally t fun w ↦ w = v := rfl

variable [DecidableEq κ] {t : AList fun _ : κ ↦ ν} {k : κ} {v : ν}

/-- A key entered. -/
theorem refsTo_insert (h : t.lookup k = none) (w : ν) :
    refsTo (t.insert k v) w = refsTo t w + if v = w then 1 else 0 := by
  rw [refsTo_eq_tally, tally_insert h, refsTo_eq_tally]
  simp only [decide_eq_true_eq]

/-- A key removed. -/
theorem refsTo_erase (h : t.lookup k = some v) (w : ν) :
    refsTo (t.erase k) w + (if v = w then 1 else 0) = refsTo t w := by
  have herase := tally_erase h fun u ↦ u = w
  simp only [decide_eq_true_eq] at herase
  rw [refsTo_eq_tally, refsTo_eq_tally, herase]

/-- What a key refers to is referred to. -/
theorem refsTo_pos_of_lookup (h : t.lookup k = some v) : 0 < refsTo t v := by
  rw [refsTo_eq_tally]
  exact tally_pos_of_lookup h (decide_eq_true rfl)

end OxideBSD.References
