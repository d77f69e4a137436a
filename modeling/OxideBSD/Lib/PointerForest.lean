import Mathlib

/-!
# Forests of pointers

Blocks that hold pointers to blocks.  A root holds one pointer, a block one in each of its slots,
and below a root lie as many levels of blocks as its depth says.  A place is a root and the slots
taken from it, the last one first; what is at a place is found by following the pointers.

* `follow_congr`: places see only the blocks above them.
* `follow_link`: a pointer put into an empty place changes that place and no other.
* `Sole.link`: a forest where no block is at two places stays one when a new block is put in.
-/

set_option autoImplicit false

namespace OxideBSD.PointerForest

variable {ρ σ β : Type} {depth : ρ → ℕ} {root root' : ρ → Option β} {slot slot' : β → σ → Option β}
  {r : ρ}

/-- The block at the place below root `r` that the slots lead to, the last one first. -/
def follow (root : ρ → Option β) (slot : β → σ → Option β) (r : ρ) : List σ → Option β
  | [] => root r
  | i :: up => (follow root slot r up).bind fun b ↦ slot b i

/-- No block is at two places. -/
def Sole (depth : ρ → ℕ) (root : ρ → Option β) (slot : β → σ → Option β) : Prop :=
  ∀ ⦃r p r' p' b⦄, p.length ≤ depth r → p'.length ≤ depth r' →
    follow root slot r p = some b → follow root slot r' p' = some b → r = r' ∧ p = p'

/-- A change outside the roots and the blocks above the last level is not seen. -/
theorem follow_congr (hroot : root' = root)
    (hslot : ∀ ⦃r p b⦄, p.length < depth r → follow root slot r p = some b → slot' b = slot b)
    {p : List σ} (hp : p.length ≤ depth r) : follow root' slot' r p = follow root slot r p := by
  induction p with
  | nil => simp [follow, hroot]
  | cons i p ih =>
    have hlt : p.length < depth r := hp
    rw [follow, follow, ih (Nat.le_of_lt hlt)]
    cases hb : follow root slot r p with
    | none => rfl
    | some b => simp [hslot hlt hb]

theorem follow_of_root_none (h : root r = none) (p : List σ) : follow root slot r p = none := by
  induction p with
  | nil => exact h
  | cons i p ih => rw [follow, ih, Option.bind_none]

/-- Something is at every place on the way to one. -/
theorem follow_of_suffix {p q : List σ} (hq : q <:+ p) (h : (follow root slot r p).isSome) :
    (follow root slot r q).isSome := by
  induction p with
  | nil => rwa [List.suffix_nil.1 hq]
  | cons i p ih =>
    rcases List.suffix_cons_iff.1 hq with rfl | hq
    · exact h
    · exact ih hq (Option.isSome_of_isSome_bind h)

section Link

variable {t : ρ} {q : List σ} {b : β} [DecidableEq ρ] [DecidableEq σ]

/-- The pointer to `b` has been put into the place `q` below `t`, which was empty, and nothing is
below `b`. -/
structure Link (depth : ρ → ℕ) (root root' : ρ → Option β) (slot slot' : β → σ → Option β) (t : ρ)
    (q : List σ) (b : β) : Prop where
  empty : follow root slot t q = none
  /-- The block above the place is there. -/
  above : ∀ ⦃i up⦄, q = i :: up → follow root slot t up ≠ none
  root_eq : ∀ r, root' r = if r = t ∧ q = [] then some b else root r
  slot_eq : ∀ ⦃r p c⦄, p.length < depth r → follow root slot r p = some c →
    ∀ i, slot' c i = if r = t ∧ q = i :: p then some b else slot c i
  below : q.length < depth t → ∀ i, slot' b i = none

variable (h : Link depth root root' slot slot' t q b) {r : ρ} {p : List σ}
include h

/-- **Only the place of a new pointer changes.** -/
theorem follow_link (hp : p.length ≤ depth r) :
    follow root' slot' r p = if r = t ∧ q = p then some b else follow root slot r p := by
  induction p with
  | nil => exact h.root_eq r
  | cons i p ih =>
    have hlt : p.length < depth r := hp
    rw [follow, follow, ih (Nat.le_of_lt hlt)]
    by_cases hself : r = t ∧ q = p
    · -- below the new block
      obtain ⟨rfl, rfl⟩ := hself
      have hne : ¬(r = r ∧ q = i :: q) := by simp
      rw [if_pos ⟨rfl, rfl⟩, if_neg hne, h.empty]
      exact h.below hlt i
    · rw [if_neg hself]
      cases hc : follow root slot r p with
      | none =>
        have hne : ¬(r = t ∧ q = i :: p) := by
          rintro ⟨rfl, rfl⟩
          exact h.above rfl hc
        rw [if_neg hne]
        rfl
      | some c => exact h.slot_eq hlt hc i

theorem Link.follow_of_some {c : β} (hp : p.length ≤ depth r) (hc : follow root slot r p = some c) :
    follow root' slot' r p = some c := by
  rw [follow_link h hp, if_neg, hc]
  rintro ⟨rfl, rfl⟩
  rw [h.empty] at hc
  cases hc

/-- What is at a place afterwards is the new block or was there before. -/
theorem Link.eq_or_follow {c : β} (hp : p.length ≤ depth r) (hc : follow root' slot' r p = some c) :
    (r = t ∧ q = p ∧ c = b) ∨ follow root slot r p = some c := by
  rw [follow_link h hp] at hc
  by_cases hself : r = t ∧ q = p
  · rw [if_pos hself, Option.some_inj] at hc
    exact .inl ⟨hself.1, hself.2, hc.symm⟩
  · rw [if_neg hself] at hc
    exact .inr hc

theorem Sole.link (hs : Sole depth root slot)
    (hnew : ∀ ⦃r p⦄, p.length ≤ depth r → follow root slot r p ≠ some b) :
    Sole depth root' slot' := by
  intro r p r' p' c hp hp' hc hc'
  rcases h.eq_or_follow hp hc with ⟨rfl, rfl, rfl⟩ | hc
  · rcases h.eq_or_follow hp' hc' with ⟨rfl, rfl, -⟩ | hc'
    · exact ⟨rfl, rfl⟩
    · exact absurd hc' (hnew hp')
  · rcases h.eq_or_follow hp' hc' with ⟨rfl, rfl, rfl⟩ | hc'
    · exact absurd hc (hnew hp)
    · exact hs hp hp' hc hc'

end Link

end OxideBSD.PointerForest
