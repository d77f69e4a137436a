import OxideBSD.Process.Signals

/-!
# Taking signals

What `take_deliverable_signal`'s loop can do to a thread, said once.

* `lowest_eq_some` and `lowest_le` are the specification of `lowest`.
* `Thread.Took t t'` says what a thread keeps when signals of it are taken: its masks and frames.
* `takeLoop_induct` is the induction rule for the loop and `takeLoop_spec` its frame, with what is
  known of the signal it ends with.
* `load_lt_of_take` is why the loop ends.
-/

set_option autoImplicit false

namespace OxideBSD.Signals

open Function Machine Proc List Option
open Thread (takeLoop)

variable {t t' : Thread} {sig k : Sig} {set : Sigset} {id fuel : Nat} {chained : Bool}
  {actions : Sig → SigAction} {r : Thread × Option (Sig × Verdict)}

/-! ## The lowest signal of a set -/

theorem lowest_eq_some (h : lowest set = some sig) :
    sig ∈ set ∧ sig ≤ sigRtMax ∧ ∀ k < sig, k ∉ set := by
  simp only [lowest, find?_range_eq_some, decide_eq_true_eq, mem_range,
    Bool.not_eq_true', decide_eq_false_iff_not] at h
  exact ⟨h.1, Nat.lt_succ_iff.1 h.2.1, h.2.2⟩

theorem lowest_le (hsig : sig ∈ set) (hmax : sig ≤ sigRtMax) :
    ∃ k ≤ sig, lowest set = some k := by
  cases h : lowest set with
  | none =>
    have hnone := find?_eq_none.1 h sig (mem_range.2 (Nat.lt_succ_of_le hmax))
    exact absurd hsig (by simpa using hnone)
  | some k =>
    refine ⟨k, ?_, rfl⟩
    by_contra hlt
    exact (lowest_eq_some h).2.2 sig (Nat.lt_of_not_le hlt) hsig

/-! ## What a thread keeps -/

/-- Some signals of `t` have been taken, and `t'` is what is left. -/
structure Thread.Took (t t' : Thread) : Prop where
  tgid : t'.tgid = t.tgid
  shared : t'.shared = t.shared
  live : t'.live = t.live
  blocked : t'.blocked = t.blocked
  stack : t'.stack = t.stack
  restore : t'.restore = t.restore
  temporary : t'.temporary = t.temporary
  waiting : t'.waiting = t.waiting
  accepted : t'.accepted = t.accepted
  pending : t'.pending ⊆ t.pending
  owed : t'.owed ⊆ t.owed
  rtQueue : ∀ sig, t'.rtQueue sig <:+ t.rtQueue sig

theorem Thread.Took.refl (t : Thread) : t.Took t :=
  ⟨rfl, rfl, rfl, rfl, rfl, rfl, rfl, rfl, rfl, subset_rfl, subset_rfl, fun _ ↦ suffix_rfl⟩

theorem Thread.Took.trans {u : Thread} (h : t.Took t') (h' : t'.Took u) : t.Took u where
  tgid := h'.tgid.trans h.tgid
  shared := h'.shared.trans h.shared
  live := h'.live.trans h.live
  blocked := h'.blocked.trans h.blocked
  stack := h'.stack.trans h.stack
  restore := h'.restore.trans h.restore
  temporary := h'.temporary.trans h.temporary
  waiting := h'.waiting.trans h.waiting
  accepted := h'.accepted.trans h.accepted
  pending := h'.pending.trans h.pending
  owed := h'.owed.trans h.owed
  rtQueue := fun sig ↦ (h'.rtQueue sig).trans (h.rtQueue sig)

theorem Thread.Took.deliverable (h : t.Took t') : t'.deliverable ⊆ t.deliverable := by
  rw [Thread.deliverable, h.blocked]
  exact Finset.sdiff_subset_sdiff h.pending subset_rfl

/-- The two ways to consume a signal. -/
theorem consume_cases (h : t.consume sig = some (id, t')) :
    (isRt sig = false ∧ id = 0 ∧
      t' = { t with pending := t.pending.erase sig, owed := t.owed.erase sig }) ∨
    (isRt sig = true ∧ ∃ rest, t.rtQueue sig = id :: rest ∧
      t' = { t with
        rtQueue := update t.rtQueue sig rest
        pending := if rest = [] then t.pending.erase sig else t.pending
        owed := if rest = [] then t.owed.erase sig else t.owed }) := by
  rw [Thread.consume] at h
  split at h
  · rename_i hrt
    split at h
    · cases h
    · rename_i head rest hqueue
      cases h
      exact .inr ⟨hrt, rest, hqueue, rfl⟩
  · rename_i hrt
    cases h
    exact .inl ⟨by simpa using hrt, rfl, rfl⟩

theorem took_of_consume (h : t.consume sig = some (id, t')) : t.Took t' := by
  obtain ⟨-, -, rfl⟩ | ⟨-, rest, hqueue, rfl⟩ := consume_cases h
  · exact { Thread.Took.refl t with
      pending := Finset.erase_subset ..
      owed := Finset.erase_subset .. }
  · refine { Thread.Took.refl t with pending := ?_, owed := ?_, rtQueue := fun k ↦ ?_ }
    · dsimp only
      split
      · exact Finset.erase_subset ..
      · exact subset_rfl
    · dsimp only
      split
      · exact Finset.erase_subset ..
      · exact subset_rfl
    · dsimp only
      obtain rfl | hne := eq_or_ne k sig
      · rw [update_self, hqueue]
        exact suffix_cons ..
      · rw [update_of_ne hne]

/-- Only the signal consumed is owed no more, and it is still owed only if more of it is queued. -/
theorem owed_of_consume (h : t.consume sig = some (id, t')) :
    (∀ k ∈ t.owed, k ≠ sig → k ∈ t'.owed) ∧
      (sig ∈ t'.owed → isRt sig = true ∧ 2 ≤ (t.rtQueue sig).length) := by
  obtain ⟨-, -, rfl⟩ | ⟨hrt, rest, hqueue, rfl⟩ := consume_cases h
  · refine ⟨fun k hk hne ↦ Finset.mem_erase.2 ⟨hne, hk⟩, fun hsig ↦ ?_⟩
    exact absurd rfl (Finset.mem_erase.1 hsig).1
  · dsimp only
    split
    · refine ⟨fun k hk hne ↦ Finset.mem_erase.2 ⟨hne, hk⟩, fun hsig ↦ ?_⟩
      exact absurd rfl (Finset.mem_erase.1 hsig).1
    · rename_i hrest
      refine ⟨fun k hk _ ↦ hk, fun _ ↦ ⟨hrt, ?_⟩⟩
      rw [hqueue, length_cons]
      have hpos := length_pos_iff.2 hrest
      omega

/-- One turn of the loop: a signal consumed, and the budget spent. -/
theorem take_cases (h : t.take chained sig = some t') :
    ∃ id u, t.consume sig = some (id, u) ∧
      ((t.budget = none ∧ t' = { u with taken := t.taken ++ [⟨sig, id, t.deliverable, none⟩] }) ∨
        ∃ b b', t.budget = some b ∧ b.spend sig = some b' ∧
          t' = { u with
            budget := some b'
            taken := t.taken ++
              [⟨sig, id, t.deliverable, if chained then some b.began else none⟩] }) := by
  obtain ⟨⟨id, u⟩, hconsume, h⟩ := bind_eq_some_iff.1 h
  refine ⟨id, u, hconsume, ?_⟩
  dsimp only at h
  split at h
  · rename_i hbudget
    cases h
    exact .inl ⟨hbudget, rfl⟩
  · rename_i b hbudget
    obtain ⟨b', hspend, rfl⟩ := map_eq_some_iff.1 h
    exact .inr ⟨b, b', hbudget, hspend, rfl⟩

/-- Taking a signal does to the rest of the thread what consuming it does. -/
theorem consume_of_take (h : t.take chained sig = some t') :
    ∃ id u, t.consume sig = some (id, u) ∧
      t' = { u with budget := t'.budget, taken := t'.taken } := by
  obtain ⟨id, u, hconsume, ⟨-, rfl⟩ | ⟨b, b', -, -, rfl⟩⟩ := take_cases h
  · refine ⟨id, u, hconsume, ?_⟩
    obtain ⟨-, -, rfl⟩ | ⟨-, rest, -, rfl⟩ := consume_cases hconsume <;> rfl
  · exact ⟨id, u, hconsume, rfl⟩

theorem took_of_take (h : t.take chained sig = some t') : t.Took t' := by
  obtain ⟨id, u, hconsume, heq⟩ := consume_of_take h
  rw [heq]
  exact { took_of_consume hconsume with }

theorem owed_of_take (h : t.take chained sig = some t') :
    (∀ k ∈ t.owed, k ≠ sig → k ∈ t'.owed) ∧
      (sig ∈ t'.owed → isRt sig = true ∧ 2 ≤ (t.rtQueue sig).length) := by
  obtain ⟨id, u, hconsume, heq⟩ := consume_of_take h
  have howed := owed_of_consume hconsume
  rw [heq]
  exact howed

/-! ## The loop -/

/-- A turn that takes the signal `sig`. -/
def Turn (chained : Bool) (t : Thread) (sig : Sig) (t' : Thread) : Prop :=
  lowest t.deliverable = some sig ∧ (chained = true → t.budget.any (·.covers sig) = true) ∧
    t.take chained sig = some t'

/-- What the loop does: it stops, or takes the lowest signal and returns it, or goes on. -/
theorem takeLoop_succ (h : takeLoop actions chained (fuel + 1) t = some r) :
    (r.2 = none ∧ (r.1 = t ∨ r.1 = { t with budget := none }) ∧
        ∀ sig, lowest t.deliverable = some sig →
          chained = true ∧ t.budget.any (·.covers sig) = false) ∨
      ∃ sig t', Turn chained t sig t' ∧
        ((verdict (actions sig) sig ≠ .ignore ∧ r = (t', some (sig, verdict (actions sig) sig))) ∨
          (verdict (actions sig) sig = .ignore ∧ takeLoop actions chained fuel t' = some r)) := by
  rw [takeLoop] at h
  split at h
  · rename_i hlow
    cases h
    refine .inl ⟨rfl, ?_, fun sig hsig ↦ ?_⟩
    · cases chained with
      | false => exact .inl rfl
      | true => exact .inr rfl
    · rw [hlow] at hsig
      cases hsig
  · rename_i sig hlow
    split at h
    · rename_i hstop
      cases h
      refine .inl ⟨rfl, .inr rfl, fun k hk ↦ ?_⟩
      rw [hlow] at hk
      cases hk
      simpa using hstop
    · rename_i hcovers
      obtain ⟨t', htake, h⟩ := bind_eq_some_iff.1 h
      refine .inr ⟨sig, t', ⟨hlow, fun hchained ↦ ?_, htake⟩, ?_⟩
      · rw [hchained] at hcovers
        simpa using hcovers
      · split at h
        · rename_i hverdict
          exact .inr ⟨hverdict, h⟩
        · rename_i hverdict
          cases h
          exact .inl ⟨hverdict, rfl⟩

/-- **The induction rule for the loop.** -/
theorem takeLoop_induct {P : Thread → Prop} (hdrop : ∀ t, P t → P { t with budget := none })
    (hturn : ∀ t sig t', P t → Turn chained t sig t' → P t') (ht : P t)
    {r : Thread × Option (Sig × Verdict)} (h : takeLoop actions chained fuel t = some r) :
    P r.1 := by
  induction fuel generalizing t with
  | zero =>
    cases h
    exact ht
  | succ fuel ih =>
    obtain ⟨-, hr | hr, -⟩ | ⟨sig, t', hturn', ⟨-, rfl⟩ | ⟨-, h⟩⟩ := takeLoop_succ h
    · rwa [hr]
    · rw [hr]
      exact hdrop t ht
    · exact hturn t sig t' ht hturn'
    · exact ih (hturn t sig t' ht hturn') h

theorem took_of_takeLoop (h : takeLoop actions chained fuel t = some r) : t.Took r.1 :=
  takeLoop_induct (P := t.Took) (fun _ hu ↦ { hu with })
    (fun _ _ _ hu hturn ↦ hu.trans (took_of_take hturn.2.2)) (.refl t) h

/-- The loop ends with a signal that was deliverable and is not ignored; what is owed no more was
deliverable too. -/
theorem takeLoop_spec (h : takeLoop actions chained fuel t = some r) :
    (∀ k ∈ t.owed, k ∉ t.deliverable → k ∈ r.1.owed) ∧
      ∀ sig v, r.2 = some (sig, v) → v = verdict (actions sig) sig ∧ v ≠ .ignore ∧
        sig ∈ t.deliverable ∧
          (sig ∈ r.1.owed → isRt sig = true ∧ 2 ≤ (t.rtQueue sig).length) := by
  induction fuel generalizing t with
  | zero =>
    cases h
    exact ⟨fun k hk _ ↦ hk, nofun⟩
  | succ fuel ih =>
    obtain ⟨hnone, hr, -⟩ | ⟨sig, t', hturn, hr⟩ := takeLoop_succ h
    · refine ⟨fun k hk _ ↦ ?_, fun sig v hv ↦ ?_⟩
      · obtain hr | hr := hr <;> rwa [hr]
      · rw [hnone] at hv
        cases hv
    · have hmem := (lowest_eq_some hturn.1).1
      have howed := owed_of_take hturn.2.2
      have hne : ∀ k, k ∉ t.deliverable → k ≠ sig := fun k hk heq ↦ hk (heq ▸ hmem)
      obtain ⟨hverdict, rfl⟩ | ⟨-, h⟩ := hr
      · refine ⟨fun k hk hdel ↦ howed.1 k hk (hne k hdel), fun k v hv ↦ ?_⟩
        cases hv
        exact ⟨rfl, hverdict, hmem, howed.2⟩
      · have htook := took_of_take hturn.2.2
        obtain ⟨hkeep, hend⟩ := ih h
        refine ⟨fun k hk hdel ↦ hkeep k (howed.1 k hk (hne k hdel))
          fun hdel' ↦ hdel (htook.deliverable hdel'), fun k v hv ↦ ?_⟩
        obtain ⟨hv, hignore, hdel, hlen⟩ := hend k v hv
        refine ⟨hv, hignore, htook.deliverable hdel, fun hk ↦ ⟨(hlen hk).1, ?_⟩⟩
        exact (hlen hk).2.trans (htook.rtQueue k).length_le

/-! ## The fuel -/

/-- Each turn takes one of the instances `load` counts. -/
theorem load_lt_of_take (hsig : sig ∈ t.pending) (hmax : sig ≤ sigRtMax)
    (h : t.take chained sig = some t') : t'.load < t.load := by
  obtain ⟨id, u, hconsume, heq⟩ := consume_of_take h
  rw [heq]
  have htook := took_of_consume hconsume
  refine Finset.sum_lt_sum (fun k _ ↦ ?_) ⟨sig, Finset.mem_range.2 (Nat.lt_succ_of_le hmax), ?_⟩
  · dsimp only
    split
    · exact (htook.rtQueue k).length_le
    · by_cases hk : k ∈ u.pending
      · rw [if_pos hk, if_pos (htook.pending hk)]
      · rw [if_neg hk]
        exact Nat.zero_le _
  · obtain ⟨hrt, -, rfl⟩ | ⟨hrt, rest, hqueue, rfl⟩ := consume_cases hconsume
    · simp [hrt, hsig]
    · simp [hrt, hqueue]

end OxideBSD.Signals
