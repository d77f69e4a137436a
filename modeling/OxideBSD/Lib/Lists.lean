import Mathlib

/-!
# Lists with places

Lists made by going over numbered places: `flatMap` over the blocks of a table.

* `coe_flatMap_range`: the list as a multiset is a sum over the places.
* `coe_flatMap_range_update`: what becomes of it when one place is filled anew.
-/

set_option autoImplicit false

namespace OxideBSD

theorem coe_flatMap {α β : Type} (f : α → List β) (l : List α) :
    (l.flatMap f : Multiset β) = (l.map fun a ↦ (f a : Multiset β)).sum := by
  induction l with
  | nil => rfl
  | cons a l ih => rw [List.flatMap_cons, ← Multiset.coe_add, ih, List.map_cons, List.sum_cons]

theorem coe_flatMap_range {α : Type} (f : ℕ → List α) (n : ℕ) :
    ((List.range n).flatMap f : Multiset α) = ∑ i ∈ Finset.range n, (f i : Multiset α) :=
  coe_flatMap f (List.range n)

/-- One place is filled anew. -/
theorem coe_flatMap_range_update {α : Type} {f g : ℕ → List α} {k n : ℕ} (hk : k < n)
    (hfg : ∀ i, i ≠ k → g i = f i) :
    ((List.range n).flatMap g : Multiset α) + (f k : Multiset α) =
      ((List.range n).flatMap f : Multiset α) + (g k : Multiset α) := by
  have hmem : k ∈ Finset.range n := Finset.mem_range.2 hk
  have hrest : ∑ i ∈ (Finset.range n).erase k, (g i : Multiset α) =
      ∑ i ∈ (Finset.range n).erase k, (f i : Multiset α) :=
    Finset.sum_congr rfl fun i hi ↦ by rw [hfg i (Finset.ne_of_mem_erase hi)]
  rw [coe_flatMap_range, coe_flatMap_range, ← Finset.add_sum_erase _ _ hmem,
    ← Finset.add_sum_erase _ _ hmem, hrest]
  ac_rfl

end OxideBSD
