import Mathlib

/-!
# What lies below

`Below R a b` says that `b` is `a` or can be reached from it going down along `R`.

* `Below.parent`: going up leaves what is below `a` only at `a` itself, as long as what is gone up from
  has one place.
* `Below.mono_of_ne`, `Below.move`: what is below `a` still is when a leaf goes, and when `x` with all
  that is below it moves to `y`, as long as `y` is not below `x`.
-/

set_option autoImplicit false

namespace OxideBSD

variable {α : Type*} {R : α → α → Prop} {a b c : α}

/-- `b` is `a` or lies below it. -/
def Below (R : α → α → Prop) (a b : α) : Prop := Relation.ReflTransGen R a b

theorem Below.refl (a : α) : Below R a a := Relation.ReflTransGen.refl

theorem Below.child (h : Below R a b) (hc : R b c) : Below R a c := h.tail hc

theorem Below.parent (h : Below R a b) (hne : b ≠ a) (hc : ∀ x, R x b → x = c) : Below R a c := by
  rcases Relation.ReflTransGen.cases_tail h with heq | ⟨p, hp, hup⟩
  · exact absurd heq hne
  · exact hc p hup ▸ hp

section Change

variable {S : α → α → Prop} {x y : α}

theorem Below.mono (h : Below R a b) (hkeep : ∀ c d, R c d → S c d) : Below S a b :=
  Relation.ReflTransGen.mono hkeep _ _ h

/-- A leaf goes. -/
theorem Below.mono_of_ne (h : Below R a b) (hleaf : ∀ c, ¬ R x c) (hne : b ≠ x)
    (hkeep : ∀ c d, R c d → d ≠ x → S c d) : Below S a b := by
  induction h with
  | refl => exact Below.refl a
  | tail _ hcd ih =>
    refine (ih ?_).child (hkeep _ _ hcd hne)
    rintro rfl
    exact hleaf _ hcd

/-- What is not below `x` stays where it is when `x` moves. -/
theorem Below.stay (h : Below R a b) (hnot : ¬ Below R x b) (hkeep : ∀ c d, R c d → d ≠ x → S c d) :
    Below S a b := by
  induction h with
  | refl => exact Below.refl a
  | tail _ hcd ih =>
    refine (ih fun hx ↦ hnot (hx.child hcd)).child (hkeep _ _ hcd ?_)
    rintro rfl
    exact hnot (Below.refl _)

/-- **A subtree moves.** -/
theorem Below.move (h : Below R a b) (hkeep : ∀ c d, R c d → d ≠ x → S c d) (hnew : S y x)
    (hy : Below R a y) (hnot : ¬ Below R x y) : Below S a b := by
  have hx : Below S a x := (hy.stay hnot hkeep).child hnew
  have hbelow : ∀ b, Below R x b → Below S a b := by
    intro b hb
    induction hb with
    | refl => exact hx
    | @tail c d _ hcd ih =>
      by_cases hd : d = x
      · exact hd ▸ hx
      · exact ih.child (hkeep c d hcd hd)
  by_cases hb : Below R x b
  · exact hbelow b hb
  · exact h.stay hb hkeep

end Change

end OxideBSD
