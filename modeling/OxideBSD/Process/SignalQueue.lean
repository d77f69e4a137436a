import OxideBSD.Process.SignalMask

/-!
# The queues of the real-time signals

Each real-time signal has a queue of instances, a pending bit, and in a cascade (the handlers run one
after the other by `sigreturn`) a count of the instances that were there when it began.

* `Faithful` is what a thread's record says of its queues: the bit is set just when the queue is not
  empty, the instances accepted are those taken followed by those queued, in order, each is taken as
  the lowest of its set, and a chained delivery takes one that is older than the cascade.
* `Queued` adds the invariant of the budget: it counts instances that are in the queue and were there
  when the cascade began.
* `Covered` says when a delivery inside a handler has a budget for what it takes, and `Ready` the same
  of any thread; `takeLoop_isSome_iff` is that a delivery does not panic just when it is ready.
* `run_rtQueues` says so of every run.
-/

set_option autoImplicit false

namespace OxideBSD.Signals.Queue

open Function Machine Proc List Option
open Thread (takeLoop)

variable {s s' : St} {e : Event} {es : List Event} {t t' : Thread} {sig k : Sig} {p : Pid}
  {set : Sigset} {n id fuel : Nat} {chained faults late : Bool} {actions : Sig → SigAction} {a : Act}

/-! ## The record of a thread -/

/-- The instances of a signal that a thread has been sent, in order. -/
def acceptedOf (t : Thread) (sig : Sig) : List Nat := (t.accepted.filter (·.1 = sig)).map (·.2)

/-- The instances of a signal that have been taken, in order. -/
def takenOf (t : Thread) (sig : Sig) : List Nat := (t.taken.filter (·.sig = sig)).map (·.id)

structure Faithful (t : Thread) : Prop where
  bit : ∀ sig, isRt sig = true → (sig ∈ t.pending ↔ t.rtQueue sig ≠ [])
  order : ∀ sig, isRt sig = true → acceptedOf t sig = takenOf t sig ++ t.rtQueue sig
  ids : t.accepted.Pairwise (·.2 < ·.2)
  among : ∀ k ∈ t.taken, lowest k.among = some k.sig
  chained : ∀ k ∈ t.taken, isRt k.sig = true → ∀ began ∈ k.chained, k.id < began

/-- The thread at the time `n`. -/
structure Queued (n : Nat) (t : Thread) : Prop extends Faithful t where
  bound : ∀ sig ∈ t.pending, sig ≤ sigRtMax
  old : ∀ x ∈ t.accepted, x.2 < n
  budget : ∀ b ∈ t.budget, ∀ sig, isRt sig = true →
    b.rt sig ≤ (t.rtQueue sig).countP (· < b.began)

/-- The instances of one signal are in the order of their numbers. -/
theorem Faithful.sorted (h : Faithful t) (hrt : isRt sig = true) :
    (t.rtQueue sig).Pairwise (· < ·) := by
  have hall : (acceptedOf t sig).Pairwise (· < ·) :=
    pairwise_map.2 (h.ids.filter _)
  rw [h.order sig hrt] at hall
  exact (pairwise_append.1 hall).2.1

theorem Queued.lt_of_mem (h : Queued n t) (hrt : isRt sig = true) (hid : id ∈ t.rtQueue sig) :
    id < n := by
  have hmem : id ∈ acceptedOf t sig := by
    rw [h.order sig hrt]
    exact mem_append_right _ hid
  obtain ⟨x, hx, rfl⟩ := mem_map.1 hmem
  exact h.old x (mem_of_mem_filter hx)

/-! ## Being sent a signal -/

/-- An instance is queued. -/
def queued (t : Thread) (sig : Sig) (id : Nat) : Thread :=
  { t with
    pending := insert sig t.pending
    rtQueue := update t.rtQueue sig (t.rtQueue sig ++ [id])
    accepted := t.accepted ++ [(sig, id)] }

theorem Queued.later (h : Queued n t) : Queued (n + 1) t :=
  { h with old := fun x hx ↦ (h.old x hx).trans (Nat.lt_succ_self n) }

theorem Queued.queued (h : Queued n t) (hsig : sig ≤ sigRtMax) (hrt : isRt sig = true) :
    Queued (n + 1) (queued t sig n) where
  bit k hk := by
    obtain rfl | hne := eq_or_ne k sig
    · simp [Queue.queued]
    · simpa [Queue.queued, hne] using h.bit k hk
  order k hk := by
    obtain rfl | hne := eq_or_ne k sig
    · have horder := h.order k hk
      simp only [acceptedOf] at horder
      simp [Queue.queued, acceptedOf, takenOf, horder]
    · simpa [Queue.queued, acceptedOf, takenOf, hne, hne.symm] using h.order k hk
  ids := by
    refine pairwise_append.2 ⟨h.ids, pairwise_singleton .., fun x hx y hy ↦ ?_⟩
    obtain rfl := mem_singleton.1 hy
    exact h.old x hx
  among := h.among
  chained := h.chained
  bound k hk := by
    obtain rfl | hk := Finset.mem_insert.1 hk
    · exact hsig
    · exact h.bound k hk
  old x hx := by
    obtain hx | hx := mem_append.1 hx
    · exact (h.old x hx).trans (Nat.lt_succ_self n)
    · obtain rfl := mem_singleton.1 hx
      exact Nat.lt_succ_self n
  budget b hb k hk := by
    refine (h.budget b hb k hk).trans ?_
    obtain rfl | hne := eq_or_ne k sig
    · simp [Queue.queued]
    · simp [Queue.queued, hne]

/-- The bit of a signal that is not queued, or already has an instance. -/
theorem Queued.mark (h : Queued n t) (hsig : sig ≤ sigRtMax)
    (hmark : isRt sig = true → t.rtQueue sig ≠ []) :
    Queued (n + 1) { t with pending := insert sig t.pending } :=
  { h.later with
    bit := fun k hk ↦ by
      obtain rfl | hne := eq_or_ne k sig
      · simp [hmark hk]
      · simpa [hne] using h.bit k hk
    bound := fun k hk ↦ by
      obtain rfl | hk := Finset.mem_insert.1 hk
      · exact hsig
      · exact h.bound k hk }

theorem Queued.recordPending (h : Queued n t) (hsig : sig ≤ sigRtMax) :
    Queued (n + 1) (t.recordPending sig n) := by
  rw [Thread.recordPending]
  split
  · rename_i hrt
    split
    · rename_i hfull
      refine h.mark hsig fun _ hempty ↦ ?_
      rw [hempty] at hfull
      exact absurd hfull (by decide)
    · exact h.queued hsig hrt
  · rename_i hrt
    exact h.mark hsig fun hrt' ↦ absurd hrt' hrt

theorem Queued.timerExpires (h : Queued n t) (hsig : sig ≤ sigRtMax) :
    Queued (n + 1) (t.timerExpires sig n) := by
  rw [Thread.timerExpires]
  split
  · rename_i hrt
    split
    · exact h.later
    · exact h.queued hsig hrt
  · rename_i hrt
    exact h.mark hsig fun hrt' ↦ absurd hrt' hrt

theorem le_of_isSig (h : isSig sig = true) : sig ≤ sigRtMax :=
  of_decide_eq_true (Bool.and_eq_true_iff.1 h).2

theorem closed_queued : Closed Queued where
  later _ _ h := h.later
  sched _ _ _ _ _ h := { h with }
  child _ _ _ _ _ :=
    { bit := by simp [St.child, Thread.fresh]
      order := by simp [St.child, Thread.fresh, acceptedOf, takenOf]
      ids := .nil
      among := nofun
      chained := nofun
      bound := by simp [St.child, Thread.fresh]
      old := nofun
      budget := nofun }
  record _ _ _ _ hsig h := { h.recordPending (le_of_isSig hsig) with }
  timer _ _ _ hsig h := h.timerExpires (le_of_isSig hsig)
  discard _ t set hset h :=
    { h with
      bit := fun k hk ↦ by
        have hnot : k ∉ set := fun hmem ↦ by
          rw [hset k hmem] at hk
          cases hk
        rw [← h.bit k hk]
        simp [hnot]
      bound := fun k hk ↦ h.bound k (Finset.mem_sdiff.1 hk).1 }

/-! ## Taking a signal -/

theorem countP_tail_le {q : Nat → Bool} {x : Nat} {l : List Nat} {m : Nat}
    (h : m ≤ (x :: l).countP q) : m - 1 ≤ l.countP q := by
  rw [countP_cons] at h
  split at h <;> omega

/-- The instance taken is the first of its queue; what the budget `b'` counts must still be there. -/
theorem Queued.consume {u : Thread} {among : Sigset} {began : Option Nat} {b' : Option Budget}
    (h : Queued n t) (hconsume : t.consume sig = some (id, u)) (hlow : lowest among = some sig)
    (hbegan : isRt sig = true → ∀ m ∈ began, id < m)
    (hbudget : ∀ b ∈ b', ∀ k, isRt k = true → b.rt k ≤ (u.rtQueue k).countP (· < b.began)) :
    Queued n { u with budget := b', taken := t.taken ++ [⟨sig, id, among, began⟩] } := by
  have hchained : ∀ k ∈ t.taken ++ [⟨sig, id, among, began⟩], isRt k.sig = true →
      ∀ m ∈ k.chained, k.id < m := by
    intro k hk
    obtain hk | hk := mem_append.1 hk
    · exact h.chained k hk
    · obtain rfl := mem_singleton.1 hk
      exact hbegan
  have hamong : ∀ k ∈ t.taken ++ [⟨sig, id, among, began⟩], lowest k.among = some k.sig := by
    intro k hk
    obtain hk | hk := mem_append.1 hk
    · exact h.among k hk
    · obtain rfl := mem_singleton.1 hk
      exact hlow
  have htook := took_of_consume hconsume
  have hbound : ∀ k ∈ u.pending, k ≤ sigRtMax := fun k hk ↦ h.bound k (htook.pending hk)
  obtain ⟨hrt, rfl, rfl⟩ | ⟨hrt, rest, hqueue, rfl⟩ := consume_cases hconsume
  · refine { h with
      bit := fun k hk ↦ ?_, order := fun k hk ↦ ?_, among := hamong, chained := hchained,
      bound := hbound, budget := hbudget }
    all_goals
      have hne : k ≠ sig := by
        rintro rfl
        rw [hrt] at hk
        cases hk
    · simpa [hne] using h.bit k hk
    · simpa [acceptedOf, takenOf, hne.symm] using h.order k hk
  · refine { h with
      bit := fun k hk ↦ ?_, order := fun k hk ↦ ?_, among := hamong, chained := hchained,
      bound := hbound, budget := hbudget }
    · obtain rfl | hne := eq_or_ne k sig
      · have hmem := (h.bit k hk).2 (by simp [hqueue])
        by_cases hrest : rest = []
        · simp [hrest]
        · simp [hrest, hmem]
      · have hbit := h.bit k hk
        by_cases hrest : rest = []
        · simpa [hrest, hne] using hbit
        · simpa [hrest, hne] using hbit
    · obtain rfl | hne := eq_or_ne k sig
      · have horder := h.order k hk
        simp only [acceptedOf, takenOf, hqueue] at horder
        simp [acceptedOf, takenOf, horder]
      · simpa [acceptedOf, takenOf, hne, hne.symm] using h.order k hk

theorem consume_budget {u : Thread} (h : t.consume sig = some (id, u)) : u.budget = t.budget := by
  obtain ⟨-, -, rfl⟩ | ⟨-, rest, -, rfl⟩ := consume_cases h <;> rfl

/-- The two ways to spend. -/
theorem spend_cases {b b' : Budget} (h : b.spend sig = some b') :
    (isRt sig = false ∧ b' = { b with standard := b.standard.erase sig }) ∨
      (isRt sig = true ∧ b.rt sig ≠ 0 ∧ b' = { b with rt := update b.rt sig (b.rt sig - 1) }) := by
  rw [Budget.spend] at h
  split at h
  · rename_i hrt
    split at h
    · cases h
    · rename_i hpos
      cases h
      exact .inr ⟨hrt, hpos, rfl⟩
  · rename_i hrt
    cases h
    exact .inl ⟨by simpa using hrt, rfl⟩

/-- What a budget counts is older than its cascade, and comes first. -/
theorem Queued.head_lt (h : Queued n t) (hrt : isRt sig = true) {b : Budget} (hb : t.budget = some b)
    (hpos : b.rt sig ≠ 0) {rest : List Nat} (hqueue : t.rtQueue sig = id :: rest) :
    id < b.began := by
  have hcount := h.budget b hb sig hrt
  have hsorted := h.sorted hrt
  rw [hqueue] at hcount hsorted
  obtain ⟨x, hx, hlt⟩ := countP_pos_iff.1 (Nat.lt_of_lt_of_le (Nat.pos_of_ne_zero hpos) hcount)
  have hlt := of_decide_eq_true hlt
  obtain rfl | hx := mem_cons.1 hx
  · exact hlt
  · exact ((pairwise_cons.1 hsorted).1 x hx).trans hlt

theorem Queued.take (h : Queued n t) (hturn : Turn chained t sig t') : Queued n t' := by
  obtain ⟨id, u, hconsume, ⟨hnone, rfl⟩ | ⟨b, b', hb, hspend, rfl⟩⟩ := take_cases hturn.2.2
  · have hu : Queued n { u with
        budget := none, taken := t.taken ++ [⟨sig, id, t.deliverable, none⟩] } :=
      h.consume hconsume hturn.1 (fun _ ↦ nofun) nofun
    have heq : u = { u with budget := none } := by rw [← hnone, ← consume_budget hconsume]
    rw [heq]
    exact hu
  · refine h.consume hconsume hturn.1 (fun hrt m hm ↦ ?_) ?_
    · obtain ⟨hrt', -⟩ | ⟨-, hpos, -⟩ := spend_cases hspend
      · rw [hrt] at hrt'
        cases hrt'
      · obtain ⟨hrt', -⟩ | ⟨-, rest, hqueue, -⟩ := consume_cases hconsume
        · rw [hrt] at hrt'
          cases hrt'
        · cases chained with
          | false => cases hm
          | true =>
            cases hm
            exact h.head_lt hrt hb hpos hqueue
    · rintro _ ⟨⟩ k hk
      have hcount := h.budget b hb k hk
      obtain ⟨hrt, rfl⟩ | ⟨hrt, -, rfl⟩ := spend_cases hspend
      · obtain ⟨-, -, rfl⟩ | ⟨hrt', -⟩ := consume_cases hconsume
        · exact hcount
        · rw [hrt] at hrt'
          cases hrt'
      · obtain ⟨hrt', -⟩ | ⟨-, rest, hqueue, rfl⟩ := consume_cases hconsume
        · rw [hrt] at hrt'
          cases hrt'
        · obtain rfl | hne := eq_or_ne k sig
          · rw [hqueue] at hcount
            simpa using countP_tail_le hcount
          · simpa [hne] using hcount

/-! ## The acts of a thread -/

theorem Queued.begin (h : Queued n t) : Queued n (t.begin n chained) := by
  rw [Thread.begin]
  split
  · refine { h with budget := ?_ }
    rintro _ ⟨⟩ k hk
    dsimp only [Thread.snapshot]
    split
    · exact (countP_eq_length.2 fun id hid ↦ decide_eq_true (h.lt_of_mem hk hid)).ge
    · exact Nat.zero_le _
  · exact h

theorem Queued.settle (h : Queued n t) {restore : Option Sigset} {taken : Option (Sig × Verdict)} :
    Queued n (t.settle restore faults taken).1 := by
  have hmask {u : Thread} (hu : Queued n u) : Queued n (u.restoreMask restore) := by
    cases restore with
    | none => exact hu
    | some mask => exact { hu with }
  cases taken with
  | none => exact hmask h
  | some taken =>
    obtain ⟨sig, verdict⟩ := taken
    cases verdict with
    | ignore => exact hmask h
    | terminate | core => exact h
    | stop => exact hmask { h with }
    | handler mask =>
      dsimp only [Thread.settle]
      split
      · exact h
      · exact { h with }

theorem Queued.deliver (h : Queued n t) {r : Thread × Bool}
    (hr : t.deliver actions n chained faults = some r) : Queued n r.1 := by
  obtain ⟨u, hloop, rfl⟩ := map_eq_some_iff.1 hr
  have hstart : Queued n { t with restore := none } := { h with }
  have hu : Queued n u.1 := takeLoop_induct (fun _ hv ↦ { hv with budget := nofun })
    (fun _ _ _ hv hturn ↦ hv.take hturn) hstart.begin hloop
  exact hu.settle

theorem Queued.popped (h : Queued n t) : Queued n t.popped := { h with }

/-- `sigtimedwait` does not spend the budget: it may only take what is not budgeted. -/
theorem Queued.sigtimedwait (h : Queued n t) {r : Thread × Option Sig}
    (hr : t.sigtimedwait set late = some r)
    (hbudget : ∀ sig ∈ lowest (t.pending ∩ set), isRt sig = true → ∀ b ∈ t.budget, b.rt sig = 0) :
    Queued n r.1 := by
  rw [Thread.sigtimedwait] at hr
  split at hr
  · cases hr
    split <;> exact { h with }
  · rename_i sig hlow
    obtain ⟨⟨id, u⟩, hconsume, rfl⟩ := map_eq_some_iff.1 hr
    have hu : Queued n { u with
        budget := t.budget, taken := t.taken ++ [⟨sig, id, t.pending ∩ set, none⟩] } := by
      refine h.consume hconsume hlow (fun _ ↦ by simp) fun b hb k hk ↦ ?_
      have hcount := h.budget b hb k hk
      obtain ⟨-, -, rfl⟩ | ⟨hrt, rest, hqueue, rfl⟩ := consume_cases hconsume
      · exact hcount
      · obtain rfl | hne := eq_or_ne k sig
        · rw [hbudget k hlow hk b hb]
          exact Nat.zero_le _
        · simpa [hne] using hcount
    rw [← consume_budget hconsume] at hu
    exact { hu with }

theorem Queued.own (h : Queued n t)
    (hbudget : ∀ set late, a = .sigtimedwait set late →
      ∀ sig ∈ lowest (t.pending ∩ set), isRt sig = true → ∀ b ∈ t.budget, b.rt sig = 0)
    (hown : t.own actions n a = some t') : Queued n t' := by
  cases a with
  | sigprocmask how set =>
    cases hown
    rw [Thread.sigprocmask.eq_def]
    split
    · exact { h with }
    · exact { h with }
    · exact { h with }
    · exact h
  | beginTemporary set =>
    cases hown
    exact { h with }
  | endTemporary =>
    cases hown
    rw [Thread.endTemporary]
    split
    · exact h
    · split <;> exact { h with }
  | sigtimedwait set late =>
    obtain ⟨r, hr, rfl⟩ := map_eq_some_iff.1 hown
    exact h.sigtimedwait hr (hbudget set late rfl)
  | returnToUser faults =>
    obtain ⟨r, hr, rfl⟩ := map_eq_some_iff.1 hown
    exact h.deliver hr
  | sigreturn faults =>
    obtain ⟨r, hr, rfl⟩ := map_eq_some_iff.1 hown
    exact h.popped.deliver (sigreturn_eq hr).2
  | sigaction | resume | send | clone | fork | exec | exit | exitGroup =>
    cases hown
    exact h

/-! ## The budget does not underflow -/

/-- The budget, if there is one, is enough for each real-time signal a delivery comes to: one whose
predecessors are all ignored.  If it is ignored itself all its instances are taken. -/
def Covered (actions : Sig → SigAction) (t : Thread) : Prop :=
  ∀ sig ∈ t.deliverable, isRt sig = true →
    (∀ k ∈ t.deliverable, k < sig → verdict (actions k) k = .ignore) →
      ∀ m ∈ t.budget.map (·.rt sig),
        if verdict (actions sig) sig = .ignore then (t.rtQueue sig).length ≤ m else 0 < m
  deriving Decidable

theorem consume_isSome (hqueue : isRt sig = true → t.rtQueue sig ≠ []) :
    ∃ id u, t.consume sig = some (id, u) := by
  rw [Thread.consume]
  split
  · rename_i hrt
    split
    · rename_i hnil
      exact absurd hnil (hqueue hrt)
    · exact ⟨_, _, rfl⟩
  · exact ⟨_, _, rfl⟩

/-- A pending signal can be consumed. -/
theorem Queued.consume_isSome (h : Queued n t) (hmem : sig ∈ t.pending) :
    ∃ id u, t.consume sig = some (id, u) :=
  Queue.consume_isSome fun hrt ↦ (h.bit sig hrt).1 hmem

/-- A signal that can be consumed can be taken if it is budgeted. -/
theorem take_isSome (hconsume : ∃ id u, t.consume sig = some (id, u))
    (hpos : ∀ b ∈ t.budget, isRt sig = true → 0 < b.rt sig) :
    ∃ t', t.take chained sig = some t' := by
  obtain ⟨id, u, hconsume⟩ := hconsume
  rw [Thread.take, hconsume]
  cases hb : t.budget with
  | none => exact ⟨_, rfl⟩
  | some b =>
    dsimp only
    rw [Budget.spend]
    by_cases hrt : isRt sig = true
    · rw [if_pos hrt, if_neg (hpos b hb hrt).ne']
      exact ⟨_, rfl⟩
    · rw [if_neg hrt]
      exact ⟨_, rfl⟩

/-- A loop whose turns all succeed ends. -/
theorem takeLoop_isSome_of {P : Thread → Prop}
    (hturn : ∀ t sig, P t → lowest t.deliverable = some sig →
      (chained = true → t.budget.any (·.covers sig) = true) →
        ∃ t', t.take chained sig = some t' ∧
          (verdict (actions sig) sig = .ignore → P t')) (ht : P t) :
    ∃ r, takeLoop actions chained fuel t = some r := by
  induction fuel generalizing t with
  | zero => exact ⟨_, rfl⟩
  | succ fuel ih =>
    rw [takeLoop]
    cases hlow : lowest t.deliverable with
    | none => exact ⟨_, rfl⟩
    | some sig =>
      dsimp only
      split
      · exact ⟨_, rfl⟩
      · rename_i hstop
        obtain ⟨t', htake, hnext⟩ := hturn t sig ht hlow fun hchained ↦ by
          rw [hchained] at hstop
          simpa using hstop
        rw [htake]
        cases hverdict : verdict (actions sig) sig with
        | ignore => exact ih (hnext hverdict)
        | terminate | core | stop | handler => exact ⟨_, rfl⟩

/-- A chained delivery takes only what its budget covers. -/
theorem Queued.takeLoop_chained (h : Queued n t) :
    ∃ r, takeLoop actions true fuel t = some r := by
  refine takeLoop_isSome_of (fun u sig hu hlow hcovers ↦ ?_) h
  have hmem := (lowest_eq_some hlow).1
  obtain ⟨u', htake⟩ : ∃ u', u.take true sig = some u' :=
    take_isSome (hu.consume_isSome (Finset.mem_sdiff.1 hmem).1) fun b hb hrt ↦ by
      have hc := hcovers rfl
      rw [hb] at hc
      simpa [Budget.covers, hrt] using hc
  exact ⟨u', htake, fun _ ↦ hu.take ⟨hlow, hcovers, htake⟩⟩

/-- Taking one signal does not touch another. -/
theorem take_of_ne (htake : t.take chained sig = some t') (hne : k ≠ sig) :
    (k ∈ t'.deliverable ↔ k ∈ t.deliverable) ∧ t'.rtQueue k = t.rtQueue k ∧
      t'.budget.map (·.rt k) = t.budget.map (·.rt k) := by
  obtain ⟨id, u, hconsume, h⟩ := take_cases htake
  have hu : (k ∈ u.deliverable ↔ k ∈ t.deliverable) ∧ u.rtQueue k = t.rtQueue k := by
    obtain ⟨-, -, rfl⟩ | ⟨-, rest, -, rfl⟩ := consume_cases hconsume
    · simp [Thread.deliverable, hne]
    · by_cases hrest : rest = []
      · simp [Thread.deliverable, hne, hrest]
      · simp [Thread.deliverable, hne, hrest]
  obtain ⟨-, rfl⟩ | ⟨b, b', hb, hspend, rfl⟩ := h
  · exact ⟨hu.1, hu.2, by rw [consume_budget hconsume]⟩
  · refine ⟨hu.1, hu.2, ?_⟩
    obtain ⟨-, rfl⟩ | ⟨-, -, rfl⟩ := spend_cases hspend
    · simp [hb]
    · simp [hb, hne]

/-- Taking a real-time signal removes the first of its queue and lowers its count. -/
theorem take_self (htake : t.take chained sig = some t') (hrt : isRt sig = true) :
    (t.rtQueue sig).length = (t'.rtQueue sig).length + 1 ∧
      (∀ m ∈ t'.budget.map (·.rt sig), t.budget.map (·.rt sig) = some (m + 1)) ∧
      (∀ m ∈ t.budget.map (·.rt sig), t'.budget.map (·.rt sig) = some (m - 1) ∧ 0 < m) ∧
      (sig ∈ t.deliverable → (sig ∈ t'.deliverable ↔ t'.rtQueue sig ≠ [])) := by
  obtain ⟨id, u, hconsume, h⟩ := take_cases htake
  obtain ⟨hrt', -⟩ | ⟨-, rest, hqueue, hu⟩ := consume_cases hconsume
  · rw [hrt] at hrt'
    cases hrt'
  have hlen : (t.rtQueue sig).length = (u.rtQueue sig).length + 1 := by
    rw [hqueue, hu]
    simp
  have hdel : sig ∈ t.deliverable → (sig ∈ u.deliverable ↔ u.rtQueue sig ≠ []) := by
    intro hmem
    have hmem := Finset.mem_sdiff.1 hmem
    by_cases hrest : rest = [] <;> simp [hu, Thread.deliverable, hrest, hmem.1, hmem.2]
  obtain ⟨hnone, rfl⟩ | ⟨b, b', hb, hspend, rfl⟩ := h
  · refine ⟨hlen, ?_, ?_, hdel⟩
    · simp [consume_budget hconsume, hnone]
    · simp [hnone]
  · obtain ⟨hrt', -⟩ | ⟨-, hpos, rfl⟩ := spend_cases hspend
    · rw [hrt] at hrt'
      cases hrt'
    · have hpos := Nat.pos_of_ne_zero hpos
      refine ⟨hlen, ?_, ?_, hdel⟩
      · rintro _ ⟨⟩
        simp only [hb, map_some, update_self]
        congr 1
        omega
      · intro m hm
        rw [hb] at hm
        cases hm
        simp [hpos]

/-- A thread of which nothing else is known is ready for a delivery if each real-time signal it comes
to has an instance, and the budget is enough. -/
def Ready (actions : Sig → SigAction) (t : Thread) : Prop :=
  ∀ sig ∈ t.deliverable, sig ≤ sigRtMax → isRt sig = true →
    (∀ k ∈ t.deliverable, k < sig → verdict (actions k) k = .ignore) →
      t.rtQueue sig ≠ [] ∧ ∀ m ∈ t.budget.map (·.rt sig),
        if verdict (actions sig) sig = .ignore then (t.rtQueue sig).length ≤ m else 0 < m

theorem Queued.ready_iff (h : Queued n t) : Ready actions t ↔ Covered actions t := by
  constructor
  · intro hr sig hmem hrt hbefore
    exact (hr sig hmem (h.bound sig (Finset.mem_sdiff.1 hmem).1) hrt hbefore).2
  · intro hc sig hmem _ hrt hbefore
    exact ⟨(h.bit sig hrt).1 (Finset.mem_sdiff.1 hmem).1, hc sig hmem hrt hbefore⟩

theorem Ready.take_isSome (hr : Ready actions t) (hlow : lowest t.deliverable = some sig) :
    ∃ t', t.take false sig = some t' := by
  obtain ⟨hmem, hmax, hfirst⟩ := lowest_eq_some hlow
  have hready hrt := hr sig hmem hmax hrt fun k hk hlt ↦ absurd hk (hfirst k hlt)
  refine Queue.take_isSome (Queue.consume_isSome fun hrt ↦ (hready hrt).1) fun b hb hrt ↦ ?_
  obtain ⟨hqueue, hcover⟩ := hready hrt
  have hcover := hcover (b.rt sig) (mem_map_of_mem _ hb)
  split at hcover
  · exact Nat.lt_of_lt_of_le (length_pos_iff.2 hqueue) hcover
  · exact hcover

/-- After an ignored signal is taken, the thread is as ready as before. -/
theorem ready_take_iff (hlow : lowest t.deliverable = some sig) (htake : t.take false sig = some t')
    (hignore : verdict (actions sig) sig = .ignore) : Ready actions t' ↔ Ready actions t := by
  have hsub := (took_of_take htake).deliverable
  have hbefore (k : Sig) (h : ∀ j ∈ t'.deliverable, j < k → verdict (actions j) j = .ignore) :
      ∀ j ∈ t.deliverable, j < k → verdict (actions j) j = .ignore := by
    intro j hj hlt
    obtain rfl | hne := eq_or_ne j sig
    · exact hignore
    · exact h j ((take_of_ne htake hne).1.2 hj) hlt
  constructor
  · intro hr k hk hmax hrt hfirst
    have hfirst' : ∀ j ∈ t'.deliverable, j < k → _ := fun j hj ↦ hfirst j (hsub hj)
    obtain rfl | hne := eq_or_ne k sig
    · obtain ⟨hlen, -, hspent, hdel⟩ := take_self htake hrt
      refine ⟨length_pos_iff.1 (by omega), fun m hm ↦ ?_⟩
      obtain ⟨hm', hpos⟩ := hspent m hm
      rw [if_pos hignore]
      -- what is left of its queue is covered by what is left of its count
      by_contra hlt
      have hleft : t'.rtQueue k ≠ [] := length_pos_iff.1 (by omega)
      have hcover := (hr k ((hdel hk).2 hleft) hmax hrt hfirst').2 (m - 1) hm'
      rw [if_pos hignore] at hcover
      omega
    · obtain ⟨hdel, hqueue, hbudget⟩ := take_of_ne htake hne
      rw [← hqueue, ← hbudget]
      exact hr k (hdel.2 hk) hmax hrt hfirst'
  · intro hr k hk hmax hrt hfirst
    have hready := hr k (hsub hk) hmax hrt (hbefore k hfirst)
    obtain rfl | hne := eq_or_ne k sig
    · obtain ⟨hlen, hspent, -, hdel⟩ := take_self htake hrt
      refine ⟨(hdel (hsub hk)).1 hk, fun m hm ↦ ?_⟩
      have hcover := hready.2 (m + 1) (hspent m hm)
      rw [if_pos hignore] at hcover ⊢
      omega
    · obtain ⟨-, hqueue, hbudget⟩ := take_of_ne htake hne
      rwa [hqueue, hbudget]

/-- **When a delivery does not panic.** -/
theorem takeLoop_isSome_iff (hload : t.load < fuel) :
    (takeLoop actions false fuel t).isSome = true ↔ Ready actions t := by
  induction fuel generalizing t with
  | zero => exact absurd hload (Nat.not_lt_zero _)
  | succ fuel ih =>
    rw [takeLoop]
    cases hlow : lowest t.deliverable with
    | none =>
      refine iff_of_true rfl fun sig hmem hmax ↦ ?_
      obtain ⟨k, -, hk⟩ := lowest_le hmem hmax
      cases hlow.symm.trans hk
    | some sig =>
      obtain ⟨hmem, hmax, hfirst⟩ := lowest_eq_some hlow
      cases htake : t.take false sig with
      | none =>
        refine iff_of_false (by simp [htake]) fun hr ↦ ?_
        obtain ⟨t', ht'⟩ := hr.take_isSome hlow
        cases htake.symm.trans ht'
      | some t' =>
        have hnext := load_lt_of_take (Finset.mem_sdiff.1 hmem).1 hmax htake
        by_cases hignore : verdict (actions sig) sig = .ignore
        · rw [← ready_take_iff hlow htake hignore, ← ih (by omega)]
          simp [htake, hignore]
        · refine iff_of_true ?_ fun k hk _ hrt hbefore ↦ ?_
          · cases hv : verdict (actions sig) sig <;> simp_all
          · -- the first that is not ignored is the last it comes to
            obtain rfl : k = sig := by
              by_contra hne
              have hge := Nat.le_of_not_lt fun hlt ↦ hfirst k hlt hk
              exact hignore (hbefore sig hmem (lt_of_le_of_ne hge (Ne.symm hne)))
            obtain ⟨hlen, -, hspent, -⟩ := take_self htake hrt
            refine ⟨length_pos_iff.1 (by omega), fun m hm ↦ ?_⟩
            rw [if_neg hignore]
            exact (hspent m hm).2

/-- A cascade that begins has a budget for all that is deliverable. -/
theorem Queued.covered_begin (h : Queued n t) (hstack : t.stack = []) :
    Covered actions (t.begin n false) := by
  intro sig hmem hrt _ m hm
  rw [begin_deliverable] at hmem
  have hbegin : t.begin n false = { t with budget := some (t.snapshot n) } := by
    rw [Thread.begin, if_pos (by simp [hstack])]
  rw [hbegin] at hm ⊢
  have hm : (t.rtQueue sig).length = m := by simpa [Thread.snapshot, hmem] using hm
  rw [← hm]
  split
  · exact le_rfl
  · exact length_pos_iff.2 ((h.bit sig hrt).1 (Finset.mem_sdiff.1 hmem).1)

/-- **When a return to user mode does not underflow.** -/
theorem Queued.deliver_isSome (h : Queued n t) :
    (t.deliver actions n false faults).isSome = true ↔ (t.stack ≠ [] → Covered actions t) := by
  have hstart : Queued n { t with restore := none } := { h with }
  rw [Thread.deliver, isSome_map, Thread.takeDeliverable,
    takeLoop_isSome_iff (by rw [begin_load]; exact Nat.lt_succ_self _), hstart.begin.ready_iff]
  by_cases hstack : t.stack = []
  · exact iff_of_true (hstart.covered_begin hstack) (absurd hstack)
  · rw [Thread.begin, if_neg (by simp [hstack])]
    exact ⟨fun hc _ ↦ hc, fun hc ↦ hc hstack⟩

/-- `sigreturn` never underflows, -/
theorem Queued.sigreturn_isSome (h : Queued n t) (hstack : t.stack ≠ []) :
    (t.sigreturn actions n faults).isSome = true := by
  have hstart : Queued n { t.popped with restore := none } := { h.popped with }
  rw [Thread.sigreturn.eq_def]
  split
  · rename_i hnil
    exact absurd hnil hstack
  · rename_i mask rest hcons
    have hpopped : t.popped = { t with stack := rest, blocked := mask } := by
      rw [Thread.popped, hcons]
      rfl
    rw [← hpopped, Thread.deliver, Thread.takeDeliverable]
    obtain ⟨r, hr⟩ := hstart.begin.takeLoop_chained
    rw [hr]
    rfl

/-- and `sigtimedwait` finds an instance where there is a bit. -/
theorem Queued.sigtimedwait_isSome (h : Queued n t) : (t.sigtimedwait set late).isSome = true := by
  rw [Thread.sigtimedwait]
  split
  · rfl
  · rename_i sig hlow
    obtain ⟨id, u, hconsume⟩ :=
      h.consume_isSome (Finset.mem_inter.1 (lowest_eq_some hlow).1).1
    rw [hconsume]
    rfl

/-! ## Runs -/

/-- `sigtimedwait` takes no instance that a cascade has budgeted, and a delivery inside a handler is
covered. -/
def Proper (s : St) : Event → Prop
  | .act p (.sigtimedwait set _) => ∀ t ∈ s.threads p, ∀ sig ∈ lowest (t.pending ∩ set),
    isRt sig = true → ∀ b ∈ t.budget, b.rt sig = 0
  | .act p (.returnToUser _) => ∀ t ∈ s.threads p, t.stack ≠ [] → Covered (s.actions t.shared) t
  | _ => True

instance : Decidable (Proper s e) := by
  apply @Event.casesOn (fun e ↦ Decidable (Proper s e)) e
  · intro p a
    apply @Act.casesOn (fun a ↦ Decidable (Proper s (.act p a))) a <;> intros <;> unfold Proper <;>
      infer_instance
  all_goals
    intros
    exact isTrue trivial

theorem boot_queued : St.boot.All Queued := by
  intro p t ht
  simp only [St.boot, update_apply] at ht
  split at ht
  · cases ht
    exact
      { bit := by simp [Thread.fresh]
        order := by simp [Thread.fresh, acceptedOf, takenOf]
        ids := .nil
        among := by rintro _ ⟨⟩
        chained := by rintro _ ⟨⟩
        bound := by simp [Thread.fresh]
        old := by rintro _ ⟨⟩
        budget := by rintro _ ⟨⟩ }
  · cases ht

/-- **A proper step keeps the invariant.** -/
theorem step_queued (hs : s.All Queued) (h : step s e = some s') (hproper : Proper s e) :
    s'.All Queued := by
  refine step_all closed_queued hs (fun p t a he ht t' hown ↦ ?_) h
  refine (hs p t ht).own (fun set late ha ↦ ?_) hown
  subst he ha
  exact hproper t ht

/-- **The queues of the real-time signals in a proper run**: the record of every thread is faithful,
`sigtimedwait` and `sigreturn` do not panic, and a return to user mode does just when it is not
proper. -/
theorem run_rtQueues (hC : Meets step Proper St.boot es) (hrun : run step St.boot es = some s) :
    ∀ p t, s.threads p = some t → Faithful t ∧
      (∀ set late, (t.sigtimedwait set late).isSome = true) ∧
      ∀ faults, (t.stack ≠ [] → (t.sigreturn (s.actions t.shared) s.clock faults).isSome = true) ∧
        ((t.deliver (s.actions t.shared) s.clock false faults).isSome = true ↔
          Proper s (.act p (.returnToUser faults))) := by
  have hs : s.All Queued :=
    run_inv (fun _ _ _ hproper hs h ↦ step_queued hs h hproper) boot_queued hC hrun
  intro p t ht
  have hq := hs p t ht
  refine ⟨hq.toFaithful, fun _ _ ↦ hq.sigtimedwait_isSome, fun _ ↦ ⟨hq.sigreturn_isSome, ?_⟩⟩
  rw [hq.deliver_isSome]
  simp [Proper, ht]

/-- Two instances, the second delivered by `sigreturn`. -/
theorem run_rtQueues_cascade : ∃ s, run step St.boot
      [.act 1 .fork, .act 2 (.sigaction 36 ⟨.caught, ∅, false, false, false⟩),
        .act 2 (.returnToUser false), .act 1 (.send 2 36 true), .act 1 (.returnToUser false),
        .act 1 (.send 2 36 true), .act 2 (.returnToUser false), .act 2 (.sigreturn false),
        .act 2 (.sigreturn false)] = some s ∧
    ∃ t, s.threads 2 = some t ∧ takenOf t 36 = [0, 1] ∧ Faithful t := by
  refine exists_run_of (fun s ↦ (s.threads 2).any (fun t ↦ takenOf t 36 = [0, 1]) = true)
    (by decide +kernel) fun s hrun htaken ↦ ?_
  obtain ⟨t, ht, htaken⟩ := (any_eq_true _ _).1 htaken
  exact ⟨t, ht, of_decide_eq_true htaken, (run_rtQueues (by decide +kernel) hrun 2 t ht).1⟩

/-- A real-time signal that comes while a handler runs, and is delivered at the end of a system call
of the handler, makes the count of its cascade underflow; and when the handler has taken the budgeted
instance with `sigtimedwait`, `sigreturn` delivers one that came later. -/
theorem budget_astray :
    (∃ s, run step St.boot
      [.act 1 .fork, .act 2 (.sigaction 10 ⟨.caught, ∅, false, false, false⟩),
        .act 2 (.returnToUser false), .act 2 (.sigaction 36 ⟨.caught, ∅, false, false, false⟩),
        .act 2 (.returnToUser false), .act 1 (.send 2 10 false), .act 2 (.returnToUser false),
        .act 1 (.send 2 36 true)] = some s ∧
      (s.threads 2).any (fun t ↦ t.live && t.idle &&
        (t.deliver (s.actions t.shared) s.clock false false).isNone) = true) ∧
    ∃ s, run step St.boot
      [.act 1 .fork, .act 2 (.sigaction 10 ⟨.caught, {36}, false, false, false⟩),
        .act 2 (.returnToUser false), .act 2 (.sigaction 36 ⟨.caught, ∅, false, false, false⟩),
        .act 2 (.returnToUser false), .act 1 (.send 2 36 true), .act 1 (.returnToUser false),
        .act 1 (.send 2 10 false), .act 1 (.returnToUser false), .act 2 (.returnToUser false),
        .act 2 (.sigtimedwait {36} false), .act 2 (.returnToUser false), .act 1 (.send 2 36 true),
        .act 2 (.sigreturn false)] = some s ∧
      (s.threads 2).any (fun t ↦ t.taken.any fun k ↦
        isRt k.sig && k.chained.any (· ≤ k.id)) = true :=
  ⟨exists_run _ (by decide +kernel), exists_run _ (by decide +kernel)⟩

end OxideBSD.Signals.Queue
