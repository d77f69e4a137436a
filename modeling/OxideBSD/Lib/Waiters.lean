import Mathlib

/-!
# Sleepers and wake-ups

Code that waits for a condition tests it, goes to sleep under a key if it does not hold, and tests it
again when somebody wakes it.  Who makes a condition true wakes the sleepers whose keys it may concern.
The question is always the same: does anybody sleep whose condition holds?

Here the sleepers are a map `w : ι → Option κ`, with `w i = some k` if `i` sleeps under the key `k`.

* `wake p w` wakes the sleepers whose key satisfies `p`.
* `Justified w J`: whoever sleeps has a reason `J` to.  `Justified.sleep`, `Justified.rouse` and
  `Justified.wake` are the rules for going to sleep, for one sleeper that gets up, and for a wake-up
  that comes with a change of the reasons: only those not woken need theirs still to hold.
* `Pending w calls J`: the same where a reason is one about the call a sleeper is in, with
  `calls : ι → Option χ` the calls that are not over.
-/

set_option autoImplicit false

namespace OxideBSD.Waiters

open Function

variable {ι κ χ : Type*} {w : ι → Option κ} {J J' : ι → κ → Prop} {p : κ → Bool} {i : ι} {k : κ}

/-- Wakes everybody who sleeps under a key that satisfies `p`. -/
def wake (p : κ → Bool) (w : ι → Option κ) : ι → Option κ :=
  fun i ↦ (w i).filter fun k ↦ !p k

@[simp] theorem wake_eq_some : wake p w i = some k ↔ w i = some k ∧ p k = false := by
  simp [wake]

@[simp] theorem wake_false : wake (fun _ ↦ false) w = w := by
  funext i
  cases h : w i <;> simp [wake, h]

/-- Whoever sleeps has a reason to. -/
def Justified (w : ι → Option κ) (J : ι → κ → Prop) : Prop := ∀ i k, w i = some k → J i k

namespace Justified

theorem mono (h : Justified w J) (hJ : ∀ i k, w i = some k → J i k → J' i k) : Justified w J' :=
  fun i k hk ↦ hJ i k hk (h i k hk)

/-- A wake-up that comes with a change of the reasons. -/
theorem wake (h : Justified w J)
    (hJ : ∀ i k, w i = some k → p k = false → J i k → J' i k) :
    Justified (Waiters.wake p w) J' := by
  intro i k hk
  obtain ⟨hk, hp⟩ := wake_eq_some.1 hk
  exact hJ i k hk hp (h i k hk)

variable [DecidableEq ι]

theorem sleep (h : Justified w J) (hk : J i k) :
    Justified (update w i (some k)) J := by
  intro j k' hj
  by_cases hji : j = i
  · subst hji
    rw [update_self, Option.some.injEq] at hj
    exact hj ▸ hk
  · rw [update_of_ne hji] at hj
    exact h j k' hj

theorem rouse (h : Justified w J) (i : ι) : Justified (update w i none) J := by
  intro j k hj
  by_cases hji : j = i
  · subst hji
    simp at hj
  · rw [update_of_ne hji] at hj
    exact h j k hj

end Justified

/-! ## Sleepers in the middle of a call -/

/-- Whoever sleeps is in a call that gives a reason to. -/
def Pending (w : ι → Option κ) (calls : ι → Option χ) (R : κ → χ → Prop) : Prop :=
  Justified w fun i k ↦ ∃ c, calls i = some c ∧ R k c

namespace Pending

variable {calls : ι → Option χ} {R R' : κ → χ → Prop}

/-- A wake-up that comes with a change of the reasons. -/
theorem wake (h : Pending w calls R) (hR : ∀ k c, p k = false → R k c → R' k c) :
    Pending (Waiters.wake p w) calls R' := by
  refine Justified.wake h fun i k _ hp ↦ ?_
  rintro ⟨c, hc, hr⟩
  exact ⟨c, hc, hR k c hp hr⟩

theorem mono (h : Pending w calls R) (hR : ∀ k c, R k c → R' k c) : Pending w calls R' := by
  refine Justified.mono h fun i k _ ↦ ?_
  rintro ⟨c, hc, hr⟩
  exact ⟨c, hc, hR k c hr⟩

variable [DecidableEq ι]

/-- A call begins or ends while its caller is awake. -/
theorem setCall (h : Pending w calls R) (hawake : w i = none) (c : Option χ) :
    Pending w (update calls i c) R := by
  refine Justified.mono h fun j k hk ↦ ?_
  rintro ⟨c', hc', hr⟩
  have hne : j ≠ i := by
    rintro rfl
    rw [hawake] at hk
    cases hk
  exact ⟨c', by rw [update_of_ne hne]; exact hc', hr⟩

/-- A call goes to sleep. -/
theorem sleep (h : Pending w calls R) (hawake : w i = none) {c : χ} (hr : R k c) :
    Pending (update w i (some k)) (update calls i (some c)) R :=
  Justified.sleep (h.setCall hawake (some c)) ⟨c, update_self .., hr⟩

theorem rouse (h : Pending w calls R) (i : ι) : Pending (update w i none) calls R :=
  Justified.rouse h i

/-- A caller is gone. -/
theorem leave (h : Pending w calls R) (i : ι) :
    Pending (update w i none) (update calls i none) R :=
  (h.rouse i).setCall (update_self ..) none

end Pending

end OxideBSD.Waiters
