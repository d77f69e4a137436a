import OxideBSD.Process.SignalQueue

/-!
# Which signal ends a system call

Three scans of `sys/process/signals.rs` choose a signal: `has_interrupting_signal` says whether a
blocked call is to end, `take_deliverable_signal` what is then delivered, and `restart_after_signal`
whether the call runs again.

* `firstActing` is the choice: the lowest deliverable signal that is not ignored.
* `interrupting_eq`, `restartScan_eq` and `takeLoop_taken`: each of the scans makes it.
* `delivery_agrees_iff`: they agree, unless the one that takes signals panics.
-/

set_option autoImplicit false

namespace OxideBSD.Signals.Choice

open Function Machine Proc Queue Option
open Thread (takeLoop)

variable {t t' : Thread} {sig : Sig} {fuel : Nat} {actions : Sig → SigAction} {restarts : Sig → Bool}

/-- `restart_after_signal`'s loop, over the signals to come.  `restarts` are the signals whose action
has `SA_RESTART`. -/
def restartScan (t : Thread) (actions : Sig → SigAction) (restarts : Sig → Bool) : List Sig → Bool
  | [] => true
  | sig :: rest =>
    if sig ∉ t.deliverable then restartScan t actions restarts rest
    else match (actions sig).handler with
      | .ign => restartScan t actions restarts rest
      | .dfl =>
        if defaultDisposition sig = .ignore then restartScan t actions restarts rest else true
      | .caught => restarts sig

/-- `restart_after_signal`.  No set has a signal 0, where the range starts. -/
def restartAfterSignal (t : Thread) (actions : Sig → SigAction) (restarts : Sig → Bool) : Bool :=
  restartScan t actions restarts (List.range (sigRtMax + 1))

/-- A deliverable signal that is not ignored. -/
def acts (t : Thread) (actions : Sig → SigAction) (sig : Sig) : Bool :=
  sig ∈ t.deliverable && verdict (actions sig) sig ≠ .ignore

/-- The lowest of them. -/
def firstActing (t : Thread) (actions : Sig → SigAction) : Option Sig :=
  (List.range (sigRtMax + 1)).find? (acts t actions)

theorem interrupting_eq : t.interrupting actions = (firstActing t actions).isSome := by
  rw [Bool.eq_iff_iff, firstActing, List.find?_isSome, Thread.interrupting, List.any_eq_true]
  rfl

/-- A call is not run again after a handler without `SA_RESTART`. -/
theorem restartScan_eq (sigs : List Sig) :
    restartScan t actions restarts sigs = false ↔ ∃ sig, sigs.find? (acts t actions) = some sig ∧
      (actions sig).handler = .caught ∧ restarts sig = false := by
  induction sigs with
  | nil => simp [restartScan]
  | cons sig rest ih =>
    rw [restartScan]
    by_cases hmem : sig ∈ t.deliverable
    · rw [if_neg (not_not.2 hmem)]
      cases hh : (actions sig).handler with
      | ign =>
        rw [List.find?_cons_of_neg (by simp [acts, verdict, hh])]
        exact ih
      | dfl =>
        split_ifs with hdefault
        · rw [List.find?_cons_of_neg (by simp [acts, verdict, hh, hdefault])]
          exact ih
        · have hacts : acts t actions sig = true := by
            cases hd : defaultDisposition sig <;> simp_all [acts, verdict]
          simp [List.find?_cons_of_pos hacts, hh]
      | caught =>
        rw [List.find?_cons_of_pos (by simp [acts, verdict, hh, hmem])]
        simp [hh]
    · rw [if_pos hmem, List.find?_cons_of_neg (by simp [acts, hmem])]
      exact ih

/-- **What a delivery takes** is the first signal that acts. -/
theorem takeLoop_taken {r : Thread × Option (Sig × Verdict)} (hload : t.load < fuel)
    (h : takeLoop actions false fuel t = some r) :
    r.2 = (firstActing t actions).map fun sig ↦ (sig, verdict (actions sig) sig) := by
  induction fuel generalizing t with
  | zero => exact absurd hload (Nat.not_lt_zero _)
  | succ fuel ih =>
    obtain ⟨hnone, -, hlow⟩ | ⟨sig, t', ⟨hlow, -, htake⟩, hend⟩ := takeLoop_succ h
    · have hfirst : firstActing t actions = none := by
        refine List.find?_eq_none.2 fun sig hsig hacts ↦ ?_
        have hmem : sig ∈ t.deliverable := by simpa using (Bool.and_eq_true_iff.1 hacts).1
        obtain ⟨k, -, hk⟩ := lowest_le hmem (Nat.lt_succ_iff.1 (List.mem_range.1 hsig))
        cases (hlow k hk).1
      rw [hnone, hfirst]
      rfl
    · obtain ⟨hmem, hmax, hfirst⟩ := lowest_eq_some hlow
      obtain ⟨hacts, rfl⟩ | ⟨hignore, h⟩ := hend
      · have hsig : firstActing t actions = some sig := by
          rw [firstActing, List.find?_range_eq_some]
          refine ⟨by simp [acts, hmem, hacts], List.mem_range.2 (Nat.lt_succ_of_le hmax), ?_⟩
          intro k hk
          simp [acts, hfirst k hk]
        rw [hsig]
        rfl
      · -- the ignored signal acts neither before nor after it is taken
        have hsame : firstActing t' actions = firstActing t actions := by
          rw [firstActing]
          congr 1
          funext k
          obtain rfl | hne := eq_or_ne k sig
          · simp [acts, hignore]
          · simp [acts, (take_of_ne htake hne).1]
        have hnext := load_lt_of_take (Finset.mem_sdiff.1 hmem).1 hmax htake
        rw [ih (by omega) h, hsame]

theorem firstActing_begin (clock : Nat) :
    firstActing (t.begin clock false) actions = firstActing t actions := by
  rw [firstActing]
  congr 1
  funext sig
  rw [acts, acts, begin_deliverable]

theorem verdict_eq_handler : (∃ mask, verdict (actions sig) sig = .handler mask) ↔
    (actions sig).handler = .caught := by
  rw [verdict]
  cases (actions sig).handler with
  | ign | caught => simp
  | dfl => cases defaultDisposition sig <;> simp

/-- **Blocking calls and delivery agree**, whatever is pending, blocked, queued and handled, just when
the thread is ready: a real-time signal that is come to has an instance, and the count the cascade
has left for it does not underflow. -/
theorem delivery_agrees_iff (t : Thread) (actions : Sig → SigAction) (restarts : Sig → Bool)
    (clock : Nat) :
    (∃ t' taken, t.takeDeliverable actions clock false = some (t', taken) ∧
      (t.interrupting actions = true ↔ taken.isSome = true) ∧
      (restartAfterSignal t actions restarts = false ↔
        ∃ sig mask, taken = some (sig, .handler mask) ∧ restarts sig = false)) ↔
    Ready actions (t.begin clock false) := by
  have hload : (t.begin clock false).load < t.load + 1 := by
    rw [begin_load]
    exact Nat.lt_succ_self _
  rw [← takeLoop_isSome_iff hload, isSome_iff_exists]
  constructor
  · rintro ⟨t', taken, htake, -⟩
    exact ⟨_, htake⟩
  · rintro ⟨⟨t', taken⟩, htake⟩
    have htaken := takeLoop_taken hload htake
    rw [firstActing_begin] at htaken
    dsimp only at htaken
    refine ⟨t', taken, htake, by rw [interrupting_eq, htaken, isSome_map], ?_⟩
    rw [restartAfterSignal, restartScan_eq, htaken]
    refine exists_congr fun sig ↦ ?_
    rw [← verdict_eq_handler]
    constructor
    · rintro ⟨hfirst, ⟨mask, hverdict⟩, hrestarts⟩
      exact ⟨mask, by rw [firstActing, hfirst, map_some, hverdict], hrestarts⟩
    · rintro ⟨mask, hfirst, hrestarts⟩
      obtain ⟨k, hk, heq⟩ := map_eq_some_iff.1 hfirst
      obtain ⟨rfl, hverdict⟩ := Prod.mk.inj heq
      exact ⟨hk, ⟨mask, hverdict⟩, hrestarts⟩

/-- A real-time signal comes while a handler runs that has a handler too: the thread has a signal to
end its calls, and the delivery at the end of the next one panics. -/
theorem interrupted_without_delivery : ∃ s, run step St.boot
      [.act 1 .fork, .act 2 (.sigaction 10 ⟨.caught, ∅, false, false, false⟩),
        .act 2 (.returnToUser false), .act 2 (.sigaction 36 ⟨.caught, ∅, false, false, false⟩),
        .act 2 (.returnToUser false), .act 1 (.send 2 10 false), .act 2 (.returnToUser false),
        .act 1 (.send 2 36 true)] = some s ∧
      (s.threads 2).any (fun t ↦ t.interrupting (s.actions t.shared) &&
        (t.takeDeliverable (s.actions t.shared) s.clock false).isNone) = true :=
  exists_run _ (by decide +kernel)

end OxideBSD.Signals.Choice
