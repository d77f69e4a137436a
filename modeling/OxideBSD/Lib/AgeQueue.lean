import Mathlib

/-!
# Queues ordered by age

A queue whose members are found both by when they came and by what they are: `push` gives the newcomer
the next age, `popOldest` takes the member that came first, `remove` takes any.

The two tables only agree while nobody is pushed who is in the queue already.  `WF` says that they
agree; then every member is in the queue once (`count_values`), and `popOldest` is `remove` of the
oldest (`popOldest_eq_some`).
-/

set_option autoImplicit false

namespace OxideBSD

open Function List

/-- A queue kept by age, oldest first, with the age of each member. -/
structure AgeQueue (α : Type) where
  byAge : List (Nat × α)
  ageOf : α → Option Nat
  next : Nat

namespace AgeQueue

variable {α : Type} [DecidableEq α]

def empty : AgeQueue α := ⟨[], fun _ ↦ none, 0⟩

variable (q : AgeQueue α)

def push (a : α) : AgeQueue α where
  byAge := q.byAge ++ [(q.next + 1, a)]
  ageOf := update q.ageOf a (some (q.next + 1))
  next := q.next + 1

def remove (a : α) : AgeQueue α :=
  match q.ageOf a with
  | none => q
  | some age =>
    { q with
      byAge := q.byAge.filter fun e ↦ e.1 ≠ age
      ageOf := update q.ageOf a none }

def popOldest : Option (α × AgeQueue α) :=
  match q.byAge with
  | [] => none
  | (_, a) :: rest => some (a, { q with byAge := rest, ageOf := update q.ageOf a none })

def values : List α := q.byAge.map Prod.snd

def contains (a : α) : Bool := (q.ageOf a).isSome

/-- The two tables agree. -/
structure WF : Prop where
  ages : (q.byAge.map Prod.fst).Nodup
  le_next : ∀ e ∈ q.byAge, e.1 ≤ q.next
  ageOf : ∀ age a, (age, a) ∈ q.byAge ↔ q.ageOf a = some age

variable {q} {a b : α}

omit [DecidableEq α] in
theorem empty_wf : (empty : AgeQueue α).WF where
  ages := nodup_nil
  le_next e he := absurd he not_mem_nil
  ageOf age a := by simp [empty]

theorem contains_push : (q.push a).contains b = true ↔ b = a ∨ q.contains b = true := by
  rcases eq_or_ne b a with rfl | hb
  · simp [contains, push]
  · simp [contains, push, hb]

theorem contains_remove : (q.remove a).contains b = true ↔ b ≠ a ∧ q.contains b = true := by
  unfold remove
  split
  · next hnone =>
    refine ⟨fun hb ↦ ⟨?_, hb⟩, fun hb ↦ hb.2⟩
    rintro rfl
    rw [contains, hnone] at hb
    cases hb
  · rcases eq_or_ne b a with rfl | hb
    · simp [contains]
    · simp [contains, hb]

theorem contains_removeAll (as : List α) :
    (as.foldl remove q).contains b = true ↔ b ∉ as ∧ q.contains b = true := by
  induction as generalizing q with
  | nil => simp
  | cons a as ih =>
    rw [foldl_cons, ih, contains_remove, mem_cons, not_or]
    exact ⟨fun ⟨hb, hne, hc⟩ ↦ ⟨⟨hne, hb⟩, hc⟩, fun ⟨⟨hne, hb⟩, hc⟩ ↦ ⟨hb, hne, hc⟩⟩

namespace WF

variable (h : q.WF)

include h

theorem push (ha : q.contains a = false) : (q.push a).WF where
  ages := by
    rw [AgeQueue.push, map_append]
    refine nodup_append.2 ⟨h.ages, nodup_singleton _, ?_⟩
    intro age hage age' hage'
    obtain ⟨e, he, rfl⟩ := mem_map.1 hage
    rw [map_singleton, mem_singleton] at hage'
    have hle := h.le_next e he
    omega
  le_next e he := by
    rcases mem_append.1 he with he | he
    · exact Nat.le_succ_of_le (h.le_next e he)
    · rw [mem_singleton.1 he]
      exact Nat.le_refl _
  ageOf age b := by
    have hnot : q.ageOf a = none := by
      rw [contains] at ha
      simpa using ha
    rw [AgeQueue.push, mem_append, h.ageOf]
    rcases eq_or_ne b a with rfl | hb
    · simp [hnot, eq_comm]
    · simp [hb]

theorem remove : (q.remove a).WF := by
  unfold AgeQueue.remove
  split
  · exact h
  · next age hage =>
    refine ⟨?_, fun e he ↦ h.le_next e (mem_filter.1 he).1, fun age' b ↦ ?_⟩
    · exact h.ages.sublist (filter_sublist.map Prod.fst)
    · rw [mem_filter, h.ageOf]
      rcases eq_or_ne b a with rfl | hb
      · dsimp only
        rw [update_self]
        refine ⟨fun ⟨hb, hne⟩ ↦ ?_, fun hb ↦ Option.noConfusion rfl (heq_of_eq hb)⟩
        rw [hage] at hb
        cases hb
        exact absurd rfl (of_decide_eq_true hne)
      · -- another member has another age
        have hne : q.ageOf b = some age' → age' ≠ age := by
          rintro hb' rfl
          have hmem := (h.ageOf age' b).2 hb'
          have hmem' := (h.ageOf age' a).2 hage
          exact hb (congrArg Prod.snd (inj_on_of_nodup_map h.ages hmem hmem' rfl))
        simpa [hb] using hne

theorem removeAll (as : List α) : (as.foldl AgeQueue.remove q).WF := by
  induction as generalizing q with
  | nil => exact h
  | cons a as ih => exact ih h.remove

omit [DecidableEq α] in
theorem mem_values : a ∈ q.values ↔ q.contains a = true := by
  rw [values, mem_map, contains, Option.isSome_iff_exists]
  constructor
  · rintro ⟨⟨age, b⟩, hb, rfl⟩
    exact ⟨age, (h.ageOf age b).1 hb⟩
  · rintro ⟨age, hage⟩
    exact ⟨(age, a), (h.ageOf age a).2 hage, rfl⟩

omit [DecidableEq α] in
theorem values_nodup : q.values.Nodup := by
  refine Nodup.map_on ?_ h.ages.of_map
  rintro ⟨age, a⟩ ha ⟨age', b⟩ hb rfl
  have hage := (h.ageOf age a).1 ha
  rw [(h.ageOf age' a).1 hb] at hage
  cases hage
  rfl

/-- **Every member is in the queue once.** -/
theorem count_values : q.values.count a = if q.contains a then 1 else 0 := by
  split
  · next ha => exact count_eq_one_of_mem h.values_nodup (h.mem_values.2 ha)
  · next ha => exact count_eq_zero_of_not_mem fun hmem ↦ ha (h.mem_values.1 hmem)

theorem popOldest_eq_some {q' : AgeQueue α} (hpop : q.popOldest = some (a, q')) :
    q.contains a = true ∧ q' = q.remove a := by
  unfold popOldest at hpop
  split at hpop
  · cases hpop
  · next age b rest hq =>
    cases hpop
    have hmem : (age, a) ∈ q.byAge := hq ▸ mem_cons_self
    have hage := (h.ageOf age a).1 hmem
    refine ⟨by rw [contains, hage]; rfl, ?_⟩
    have hages := h.ages
    rw [hq, map_cons, nodup_cons] at hages
    have hrest : q.byAge.filter (fun e ↦ e.1 ≠ age) = rest := by
      rw [hq, filter_cons_of_neg (by simp), filter_eq_self]
      intro e he
      have hmem' : e.1 ∈ rest.map Prod.fst := mem_map_of_mem he
      exact decide_eq_true fun heq ↦ hages.1 (heq ▸ hmem')
    rw [AgeQueue.remove, hage]
    simp only [hrest]

end WF

end AgeQueue
end OxideBSD
