import OxideBSD.Process.SignalTake

/-!
# What one event does to the threads

The events of `Signals.step`, for a property `J` of one thread that may speak of the clock.

* `Thread.own` is what an act does to the record of the thread that performs it.
* `Closed J` says that `J` survives what others do to a thread: sending it a signal, stopping it,
  killing it, forking it.
* `step_all` is the step lemma: if `J` is closed and the act preserves it for the thread that
  performs it, every thread has it afterwards.
* `step_actions` and `step_log` say what happens to the actions and the log.
-/

set_option autoImplicit false

namespace OxideBSD.Signals

open Function Machine Proc Option

/-- What an act does to the thread that performs it, apart from sending it a signal and ending it. -/
def Thread.own (t : Thread) (actions : Sig → SigAction) (clock : Nat) : Act → Option Thread
  | .sigprocmask how set => some (t.sigprocmask how set)
  | .beginTemporary set => some (t.beginTemporary set)
  | .endTemporary => some (t.endTemporary actions)
  | .sigtimedwait set late => (t.sigtimedwait set late).map (·.1)
  | .returnToUser faults => (t.deliver actions clock false faults).map (·.1)
  | .sigreturn faults => (t.sigreturn actions clock faults).map (·.1)
  | _ => some t

/-- What others do to a thread keeps `J`. -/
structure Closed (J : Nat → Thread → Prop) : Prop where
  later : ∀ n t, J n t → J (n + 1) t
  sched : ∀ n t live asleep stopped, J n t →
    J n { t with live := live, asleep := asleep, stopped := stopped }
  child : ∀ n t tgid shared, J n t → J n (St.child t tgid shared)
  record : ∀ n t sig owed, isSig sig → J n t → J (n + 1) (t.recorded sig n owed)
  timer : ∀ n t sig, isSig sig → J n t → J (n + 1) (t.timerExpires sig n)
  discard : ∀ n t set, (∀ sig ∈ set, isRt sig = false) → J n t →
    J n { t with pending := t.pending \ set, owed := t.owed \ set }

/-- Every thread has the property `J`. -/
def St.All (J : Nat → Thread → Prop) (s : St) : Prop := ∀ p t, s.threads p = some t → J s.clock t

variable {J : Nat → Thread → Prop} {s s' : St} {e : Event} {p q caller target tgid : Pid} {t : Thread}
  {sig : Sig} {owed queued : Bool} {a : Act}

/-- An act goes on with a call, or is made by a thread that is not in one. -/
theorem perform_cases (h : perform s p t a = some s') :
    (∃ set late r, a = .sigtimedwait set late ∧ t.temporary = none ∧
      t.waiting.all (· = set) = true ∧ t.sigtimedwait set late = some r ∧
        s' = r.2.elim (s.put p r.1) fun sig ↦ (s.put p r.1).note (.waited p sig)) ∨
    (a = .endTemporary ∧ t.waiting = none ∧
      s' = s.put p (t.endTemporary (s.actions t.shared))) ∨
    (t.idle = true ∧ perform.idly s p t a = some s') := by
  cases a with
  | sigtimedwait set late =>
    obtain ⟨⟨htemp, hwait⟩, h⟩ := of_ite_right h nofun
    obtain ⟨r, hr, rfl⟩ := map_eq_some_iff.1 h
    exact .inl ⟨set, late, r, rfl, htemp, hwait, hr, rfl⟩
  | endTemporary =>
    obtain ⟨hwait, ⟨⟩⟩ := of_ite_right h nofun
    exact .inr (.inl ⟨rfl, hwait, rfl⟩)
  | sigaction | sigprocmask | beginTemporary | returnToUser | sigreturn | resume | send | clone | fork
  | exec | exit | exitGroup => exact .inr (.inr (ite_none_right_eq_some.1 h))

theorem step_act (h : step s (.act p a) = some s') :
    ∃ t, s.threads p = some t ∧ (t.live = true ∧ t.asleep = false ∧ t.stopped = false) ∧
      perform s p t a = some s' := by
  obtain ⟨t, ht, h⟩ := bind_eq_some_iff.1 h
  obtain ⟨hrun, h⟩ := of_ite_right h nofun
  exact ⟨t, ht, by simpa [and_assoc] using hrun, h⟩

/-- A stopped thread: `SIGCONT` is discarded. -/
def Thread.halt (u : Thread) : Thread :=
  { u with
    stopped := true
    asleep := false
    pending := u.pending.erase sigCont
    owed := u.owed.erase sigCont }

/-- What sending a signal can do to the thread that was chosen: nothing; the signal becomes pending;
or, for a thread of another process, which is continued first if it was stopped and the signal is
`SIGCONT`, the default action is taken at once. -/
theorem send_cases :
    s.send caller target sig queued = s ∨
    ∃ u, s.threads (s.recipient target sig) = some u ∧ ∃ owed : Bool, (owed = true → u.tgid = target) ∧
      (s.send caller target sig queued = s.record (s.recipient target sig) sig owed ∨
      ∃ v, (v = u ∨ sig = sigCont ∧ v = St.continued u) ∧
        (s.send caller target sig queued = s.put (s.recipient target sig) v ∨
        s.send caller target sig queued =
          (s.put (s.recipient target sig) v).record (s.recipient target sig) sig owed ∨
        s.send caller target sig queued = (s.put (s.recipient target sig) v).killGroup v.tgid ∨
        defaultDisposition sig = .stop ∧ s.send caller target sig queued =
          (s.put (s.recipient target sig) v).put (s.recipient target sig) v.halt)) := by
  rw [St.send]
  cases hq : s.threads (s.recipient target sig) with
  | none => exact .inl rfl
  | some u =>
    dsimp only
    split
    · exact .inl rfl
    generalize hw : (decide (u.tgid = target) &&
      decide (verdict (s.actions u.shared sig) sig ≠ .ignore)) = owed
    have howed : owed = true → u.tgid = target := by
      rintro rfl
      exact of_decide_eq_true (Bool.and_eq_true_iff.1 hw).1
    split
    · exact .inr ⟨u, rfl, owed, howed, .inl rfl⟩
    split
    · exact .inl rfl
    generalize hv : (if (decide (sig = sigCont) && u.stopped) = true then St.continued u else u) = v
    refine .inr ⟨u, rfl, owed, howed, .inr ⟨v, ?_, ?_⟩⟩
    · rw [← hv]
      split
      · rename_i hcont
        exact .inr ⟨of_decide_eq_true (Bool.and_eq_true_iff.1 hcont).1, rfl⟩
      · exact .inl rfl
    split
    · exact .inl rfl
    · exact .inr (.inl rfl)
    split
    · exact .inr (.inl rfl)
    split
    · exact .inl rfl
    · split
      · exact .inr (.inr (.inl rfl))
      · exact .inr (.inl rfl)
    · exact .inr (.inr (.inl rfl))
    · rename_i hstop
      exact .inr (.inr (.inr ⟨hstop, rfl⟩))

namespace St.All

theorem put (hs : s.All J) (ht : J s.clock t) : (s.put p t).All J := by
  intro q u hu
  simp only [St.put, update_apply] at hu
  split at hu
  · cases hu
    exact ht
  · exact hs q u hu

theorem killGroup (hJ : Closed J) (hs : s.All J) : (s.killGroup tgid).All J := by
  intro q u hu
  obtain ⟨v, hv, rfl⟩ := map_eq_some_iff.1 hu
  split
  · exact hJ.sched _ _ false v.asleep v.stopped (hs q v hv)
  · exact hs q v hv

theorem record (hJ : Closed J) (hsig : isSig sig) (hs : s.All J) :
    (s.record q sig owed).All J := by
  rw [St.record]
  cases hq : s.threads q with
  | none => exact hs
  | some u =>
    intro r v hv
    simp only [St.put, update_apply] at hv
    split at hv
    · cases hv
      exact hJ.record _ _ _ _ hsig (hs q u hq)
    · exact hJ.later _ _ (hs r v hv)

theorem continued (hJ : Closed J) {u : Thread} {n : Nat} (hu : J n u) : J n (St.continued u) := by
  have hset : ∀ sig ∈ ({sigStop, sigTstp} : Sigset), isRt sig = false := by decide
  exact hJ.discard n _ _ hset (hJ.sched n u u.live false false hu)

theorem halt (hJ : Closed J) {u : Thread} {n : Nat} (hu : J n u) : J n u.halt := by
  have hset : ∀ sig ∈ ({sigCont} : Sigset), isRt sig = false := by decide
  have hstop := hJ.discard n _ _ hset (hJ.sched n u u.live false true hu)
  rwa [Finset.sdiff_singleton_eq_erase, Finset.sdiff_singleton_eq_erase] at hstop

theorem send (hJ : Closed J) (hsig : isSig sig) (hs : s.All J) :
    (s.send caller target sig queued).All J := by
  obtain h | ⟨u, hu, owed, -, h | ⟨v, hv, h⟩⟩ := send_cases
  · rwa [h]
  · rw [h]
    exact hs.record hJ hsig
  · have hv : J s.clock v := by
      obtain rfl | ⟨-, rfl⟩ := hv
      · exact hs _ v hu
      · exact continued hJ (hs _ u hu)
    have hput : (s.put (s.recipient target sig) v).All J := hs.put hv
    obtain h | h | h | ⟨-, h⟩ := h
    · rwa [h]
    · rw [h]
      exact hput.record hJ hsig
    · rw [h]
      exact hput.killGroup hJ
    · rw [h]
      exact hput.put (halt hJ hv)

theorem goBack (hJ : Closed J) (hs : s.All J) {r : Thread × Bool} (hr : J s.clock r.1) :
    (s.goBack p t r).All J := by
  rw [St.goBack]
  split
  · exact (hs.put hr).killGroup hJ
  · exact hs.put hr

theorem perform (hJ : Closed J) (hs : s.All J) (ht : s.threads p = some t)
    (hown : ∀ t', t.own (s.actions t.shared) s.clock a = some t' → J s.clock t')
    (h : Signals.perform s p t a = some s') : s'.All J := by
  have hold := hs p t ht
  obtain ⟨set, late, r, rfl, -, -, hr, rfl⟩ | ⟨rfl, -, rfl⟩ | ⟨-, h⟩ := perform_cases h
  · have hput := hs.put (p := p) (hown r.1 (by rw [Thread.own, hr]; rfl))
    cases r.2 with
    | none => exact hput
    | some sig => exact hput
  · exact hs.put (hown _ rfl)
  · cases a with
    | sigtimedwait | endTemporary => cases h
    | sigaction sig action =>
      cases h
      rw [St.sigaction]
      split <;> exact hs
    | sigprocmask how set =>
      cases h
      exact hs.put (hown _ rfl)
    | beginTemporary set =>
      cases h
      exact hs.put (hown _ rfl)
    | returnToUser faults =>
      obtain ⟨r, hr, rfl⟩ := map_eq_some_iff.1 h
      exact hs.goBack hJ (hown r.1 (by rw [Thread.own, hr]; rfl))
    | sigreturn faults =>
      obtain ⟨r, hr, rfl⟩ := map_eq_some_iff.1 h
      exact hs.goBack hJ (hown r.1 (by rw [Thread.own, hr]; rfl))
    | resume =>
      cases h
      exact hs.goBack hJ hold
    | send target sig queued =>
      obtain ⟨hsig, ⟨⟩⟩ := of_ite_right h nofun
      exact hs.send hJ hsig
    | clone =>
      cases h
      exact hs.put (hJ.child _ _ _ _ hold)
    | fork =>
      cases h
      exact hs.put (hJ.child _ _ _ _ hold)
    | exec =>
      cases h
      exact hs
    | exit =>
      cases h
      exact hs.put (hJ.sched _ t false t.asleep t.stopped hold)
    | exitGroup =>
      cases h
      exact hs.killGroup hJ

end St.All

/-- **The step lemma** for properties of one thread. -/
theorem step_all (hJ : Closed J) (hs : s.All J)
    (hown : ∀ p t a, e = .act p a → s.threads p = some t →
      ∀ t', t.own (s.actions t.shared) s.clock a = some t' → J s.clock t')
    (h : step s e = some s') : s'.All J := by
  cases e with
  | act p a =>
    obtain ⟨t, ht, -, h⟩ := step_act h
    exact hs.perform hJ ht (hown p t a rfl ht) h
  | post p sig =>
    obtain ⟨hsig, ⟨⟩⟩ := of_ite_right h nofun
    exact hs.record hJ hsig
  | timer p sig =>
    obtain ⟨hsig, h⟩ := of_ite_right h nofun
    obtain ⟨t, ht, rfl⟩ := map_eq_some_iff.1 h
    intro q u hu
    simp only [St.put, update_apply] at hu
    split at hu
    · cases hu
      exact hJ.timer _ _ _ hsig (hs p t ht)
    · exact hJ.later _ _ (hs q u hu)
  | sleep p =>
    obtain ⟨t, ht, h⟩ := bind_eq_some_iff.1 h
    cases (of_ite_left h nofun).2
    exact hs.put (hJ.sched _ t t.live true t.stopped (hs p t ht))
  | wake p =>
    obtain ⟨t, ht, rfl⟩ := map_eq_some_iff.1 h
    exact hs.put (hJ.sched _ t t.live false t.stopped (hs p t ht))

/-! ## The actions and the log -/

/-- A property of the action of each signal. -/
def St.Actions (A : Sig → SigAction → Prop) (s : St) : Prop := ∀ n sig, A sig (s.actions n sig)

theorem record_frame : (s.record q sig owed).actions = s.actions ∧
    (s.record q sig owed).log = s.log := by
  rw [St.record]
  split <;> exact ⟨rfl, rfl⟩

theorem send_frame : (s.send caller target sig queued).actions = s.actions ∧
    (s.send caller target sig queued).log = s.log := by
  obtain h | ⟨u, -, owed, -, h | ⟨v, -, h | h | h | ⟨-, h⟩⟩⟩ := send_cases
  · rw [h]
    exact ⟨rfl, rfl⟩
  · rw [h]
    exact record_frame
  · rw [h]
    exact ⟨rfl, rfl⟩
  · rw [h]
    exact record_frame
  · rw [h]
    exact ⟨rfl, rfl⟩
  · rw [h]
    exact ⟨rfl, rfl⟩

theorem goBack_actions {r : Thread × Bool} : (s.goBack p t r).actions = s.actions := by
  rw [St.goBack]
  split <;> rfl

/-- The actions that `sigaction` sets keep `A`, and so do the default ones. -/
theorem step_actions {A : Sig → SigAction → Prop} (hdefault : ∀ sig, A sig .default)
    (hs : s.Actions A)
    (hset : ∀ p sig action, e = .act p (.sigaction sig action) →
      sig ≠ sigKill → sig ≠ sigStop → A sig action)
    (h : step s e = some s') : s'.Actions A := by
  cases e with
  | act p a =>
    obtain ⟨t, -, -, h⟩ := step_act h
    obtain ⟨set, late, r, rfl, -, -, -, rfl⟩ | ⟨rfl, -, rfl⟩ | ⟨-, h⟩ := perform_cases h
    · cases r.2 with
      | none => exact hs
      | some sig => exact hs
    · exact hs
    · cases a with
      | sigtimedwait | endTemporary => cases h
      | sigprocmask | beginTemporary | clone | exit | exitGroup =>
        cases h
        exact hs
      | sigaction sig action =>
        cases h
        rw [St.sigaction]
        split
        · exact hs
        · rename_i hsig
          rw [not_or, not_or] at hsig
          intro n k
          simp only [update_apply]
          split
          · simp only [update_apply]
            split
            · rename_i hk
              rw [hk]
              exact hset p sig action rfl hsig.1 hsig.2.1
            · exact hs _ k
          · exact hs n k
      | returnToUser faults =>
        obtain ⟨r, -, rfl⟩ := map_eq_some_iff.1 h
        rw [St.Actions, goBack_actions]
        exact hs
      | sigreturn faults =>
        obtain ⟨r, -, rfl⟩ := map_eq_some_iff.1 h
        rw [St.Actions, goBack_actions]
        exact hs
      | resume =>
        cases h
        rw [St.Actions, goBack_actions]
        exact hs
      | send target sig queued =>
        cases (of_ite_right h nofun).2
        rw [St.Actions, send_frame.1]
        exact hs
      | fork =>
        cases h
        intro n k
        simp only [St.fork, update_apply]
        split
        · exact hs _ k
        · exact hs n k
      | exec =>
        cases h
        intro n k
        simp only [St.exec, update_apply]
        split
        · dsimp only
          split
          · exact hdefault k
          · exact hs _ k
        · exact hs n k
  | post p sig =>
    cases (of_ite_right h nofun).2
    rw [St.Actions, record_frame.1]
    exact hs
  | timer p sig =>
    obtain ⟨-, h⟩ := of_ite_right h nofun
    obtain ⟨t, -, rfl⟩ := map_eq_some_iff.1 h
    exact hs
  | sleep p =>
    obtain ⟨t, -, h⟩ := bind_eq_some_iff.1 h
    cases (of_ite_left h nofun).2
    exact hs
  | wake p =>
    obtain ⟨t, -, rfl⟩ := map_eq_some_iff.1 h
    exact hs

/-- How a thread goes back to user mode: with the delivery that is made after a system call or an
interrupt or from a handler, or with none. -/
def GoesBack (s : St) (e : Event) (p : Pid) (t : Thread) (r : Thread × Bool) : Prop :=
  (∃ faults, (e = .act p (.returnToUser faults) ∧
      t.deliver (s.actions t.shared) s.clock false faults = some r) ∨
    (e = .act p (.sigreturn faults) ∧ t.sigreturn (s.actions t.shared) s.clock faults = some r)) ∨
  (e = .act p .resume ∧ r = (t, false))

theorem goBack_log {r : Thread × Bool} : (s.goBack p t r).log =
    .returned p (sigKill ∈ t.pending && t.tgid ≠ initPid) r.2 :: s.log := by
  rw [St.goBack]
  split <;> rfl

/-- What is noted. -/
theorem step_log (h : step s e = some s') :
    s'.log = s.log ∨
    (∃ p t set late r sig, e = .act p (.sigtimedwait set late) ∧ s.threads p = some t ∧
      t.sigtimedwait set late = some (r, some sig) ∧ s'.log = .waited p sig :: s.log) ∨
    (∃ p t r, s.threads p = some t ∧ t.idle = true ∧ GoesBack s e p t r ∧
      s'.log = .returned p (sigKill ∈ t.pending && t.tgid ≠ initPid) r.2 :: s.log) ∨
    (∃ p t, e = .act p .exit ∧ s.threads p = some t ∧
      s'.log = .exited p (if s.othersLive p t then t.owed else ∅) :: s.log) := by
  cases e with
  | act p a =>
    obtain ⟨t, ht, -, h⟩ := step_act h
    obtain ⟨set, late, ⟨r, sig⟩, rfl, -, -, hr, rfl⟩ | ⟨rfl, -, rfl⟩ | ⟨hidle, h⟩ := perform_cases h
    · cases sig with
      | none => exact .inl rfl
      | some sig => exact .inr (.inl ⟨p, t, set, late, r, sig, rfl, ht, hr, rfl⟩)
    · exact .inl rfl
    · cases a with
      | sigtimedwait | endTemporary => cases h
      | sigprocmask | beginTemporary | clone | exitGroup | fork | exec =>
        cases h
        exact .inl rfl
      | sigaction sig action =>
        cases h
        rw [St.sigaction]
        split <;> exact .inl rfl
      | exit =>
        cases h
        exact .inr (.inr (.inr ⟨p, t, rfl, ht, rfl⟩))
      | returnToUser faults =>
        obtain ⟨r, hr, rfl⟩ := map_eq_some_iff.1 h
        exact .inr (.inr (.inl ⟨p, t, r, ht, hidle, .inl ⟨faults, .inl ⟨rfl, hr⟩⟩, goBack_log⟩))
      | sigreturn faults =>
        obtain ⟨r, hr, rfl⟩ := map_eq_some_iff.1 h
        exact .inr (.inr (.inl ⟨p, t, r, ht, hidle, .inl ⟨faults, .inr ⟨rfl, hr⟩⟩, goBack_log⟩))
      | resume =>
        cases h
        exact .inr (.inr (.inl ⟨p, t, (t, false), ht, hidle, .inr ⟨rfl, rfl⟩, goBack_log⟩))
      | send target sig queued =>
        cases (of_ite_right h nofun).2
        exact .inl send_frame.2
  | post p sig =>
    cases (of_ite_right h nofun).2
    exact .inl record_frame.2
  | timer p sig =>
    obtain ⟨-, h⟩ := of_ite_right h nofun
    obtain ⟨t, -, rfl⟩ := map_eq_some_iff.1 h
    exact .inl rfl
  | sleep p =>
    obtain ⟨t, -, h⟩ := bind_eq_some_iff.1 h
    cases (of_ite_left h nofun).2
    exact .inl rfl
  | wake p =>
    obtain ⟨t, -, rfl⟩ := map_eq_some_iff.1 h
    exact .inl rfl

end OxideBSD.Signals
