import OxideBSD.Process.SignalStep

/-!
# `SIGKILL` and `SIGSTOP` cannot be held off

The mask of a thread comes from `sigprocmask`, from a temporary mask, from the handler it runs and
from the frame `sigreturn` restores.  The first two take `SIGKILL` and `SIGSTOP` out; the handler's
mask is `sa_mask` as `sigaction` was given it.

* `Clean` says that no mask a thread has or will restore holds either signal; it is kept as long as
  the masks given to `sigaction` for a handler do not (`Clean.own`).
* `Dies` says when a delivery with `SIGKILL` pending ends the process: the first signal in order that
  is not ignored must do so, and a chained delivery must have a budget for all up to it.
  `takeLoop_dies` is that it does, and `dies_of_takeLoop` that this is the only way.
* `run_unblockable` says that in every run whose steps are `Proper` the mask of no thread holds the
  signals, `sigtimedwait` returns neither, and who goes back to user mode with `SIGKILL` pending dies.
-/

set_option autoImplicit false

namespace OxideBSD.Signals

open Function Machine Proc List Option
open Thread (takeLoop)

/-! ## Masks -/

/-- A mask without the signals nothing blocks. -/
def Free (set : Sigset) : Prop := sigKill ∉ set ∧ sigStop ∉ set
  deriving Decidable

variable {s s' : St} {e : Event} {es : List Event} {t t' : Thread} {sig k : Sig}
  {set set' : Sigset} {fuel n : Nat} {chained faults : Bool} {actions : Sig → SigAction} {a : Act}
  {r : Thread × Bool}

theorem Free.sdiff_unblockable : Free (set \ unblockable) := by
  constructor <;> simp [unblockable]

theorem Free.union (h : Free set) (h' : Free set') : Free (set ∪ set') := by
  simp only [Free, Finset.mem_union, not_or] at h h' ⊢
  exact ⟨⟨h.1, h'.1⟩, h.2, h'.2⟩

theorem Free.mono (h : Free set) (hsub : set' ⊆ set) : Free set' :=
  ⟨fun hmem ↦ h.1 (hsub hmem), fun hmem ↦ h.2 (hsub hmem)⟩

/-- No mask of the thread, and none it will restore, holds `SIGKILL` or `SIGSTOP`. -/
structure Clean (t : Thread) : Prop where
  blocked : Free t.blocked
  stack : ∀ mask ∈ t.stack, Free mask
  restore : ∀ mask ∈ t.restore, Free mask
  temporary : ∀ mask ∈ t.temporary, Free mask

/-- The actions of the two signals are the default ones, and a handler's mask lacks them. -/
def Sound (sig : Sig) (a : SigAction) : Prop :=
  (a.handler = .caught → Free a.mask) ∧ (sig = sigKill ∨ sig = sigStop → a.handler = .dfl)

theorem Sound.default (sig : Sig) : Sound sig .default := ⟨nofun, fun _ ↦ rfl⟩

theorem Clean.of_took (h : Clean t) (htook : t.Took t') : Clean t' where
  blocked := by rw [htook.blocked]; exact h.blocked
  stack := by rw [htook.stack]; exact h.stack
  restore := by rw [htook.restore]; exact h.restore
  temporary := by rw [htook.temporary]; exact h.temporary

theorem clean_recordPending (h : Clean t) : Clean (t.recordPending sig n) := by
  rw [Thread.recordPending]
  split
  · split
    · exact { h with }
    · exact { h with }
  · exact { h with }

theorem clean_timerExpires (h : Clean t) : Clean (t.timerExpires sig n) := by
  rw [Thread.timerExpires]
  split
  · split
    · exact h
    · exact { h with }
  · exact { h with }

theorem closed_clean : Closed fun _ t ↦ Clean t where
  later _ _ h := h
  sched _ _ _ _ _ h := { h with }
  child _ _ _ _ h := { blocked := h.blocked, stack := h.stack, restore := nofun, temporary := nofun }
  record _ _ _ _ _ h := { clean_recordPending h with }
  timer _ _ _ _ h := clean_timerExpires h
  discard _ _ _ _ h := { h with }

theorem Clean.sigprocmask (h : Clean t) (how : Nat) (set : Sigset) : Clean (t.sigprocmask how set) := by
  rw [Thread.sigprocmask.eq_def]
  split
  · exact { h with blocked := h.blocked.union .sdiff_unblockable }
  · exact { h with blocked := h.blocked.mono Finset.sdiff_subset }
  · exact { h with blocked := .sdiff_unblockable }
  · exact h

theorem Clean.beginTemporary (h : Clean t) : Clean (t.beginTemporary set) where
  blocked := .sdiff_unblockable
  stack := h.stack
  restore := h.restore
  temporary := by
    rintro _ ⟨⟩
    exact h.blocked

theorem Clean.endTemporary (h : Clean t) : Clean (t.endTemporary actions) := by
  rw [Thread.endTemporary]
  split
  · exact h
  · rename_i original horiginal
    have horiginal : Free original := h.temporary original horiginal
    split
    · exact { h with restore := by rintro _ ⟨⟩; exact horiginal, temporary := nofun }
    · exact { h with blocked := horiginal, temporary := nofun }

theorem Clean.sigtimedwait (h : Clean t) {late : Bool} {r : Thread × Option Sig}
    (hr : t.sigtimedwait set late = some r) : Clean r.1 := by
  rw [Thread.sigtimedwait] at hr
  split at hr
  · cases hr
    split <;> exact { h with }
  · obtain ⟨⟨id, u⟩, hconsume, rfl⟩ := map_eq_some_iff.1 hr
    exact { h.of_took (took_of_consume hconsume) with }

/-- The mask under which a handler runs. -/
theorem free_of_verdict (ha : Sound sig (actions sig)) {mask : Sigset}
    (h : verdict (actions sig) sig = .handler mask) : Free mask := by
  rw [verdict] at h
  split at h
  · cases h
  · split at h <;> cases h
  · rename_i hcaught
    have hmask := ha.1 hcaught
    have hsig : ¬ (sig = sigKill ∨ sig = sigStop) := by
      intro hsig
      rw [ha.2 hsig] at hcaught
      cases hcaught
    cases h
    split
    · exact hmask.mono (Finset.erase_subset ..)
    · rw [not_or] at hsig
      simp only [Free, Finset.mem_insert, not_or]
      exact ⟨⟨Ne.symm hsig.1, hmask.1⟩, Ne.symm hsig.2, hmask.2⟩

theorem Clean.restoreMask (h : Clean t) {restore : Option Sigset} (hr : ∀ mask ∈ restore, Free mask) :
    Clean (t.restoreMask restore) := by
  cases restore with
  | none => exact h
  | some mask => exact { h with blocked := hr mask rfl }

theorem Clean.deliver (h : Clean t) (ha : ∀ sig, Sound sig (actions sig))
    (hr : t.deliver actions n chained faults = some r) : Clean r.1 := by
  obtain ⟨⟨u, taken⟩, hloop, rfl⟩ := map_eq_some_iff.1 hr
  have hbegin : Clean (({ t with restore := none } : Thread).begin n chained) := by
    rw [Thread.begin]
    split
    · exact { h with restore := nofun }
    · exact { h with restore := nofun }
  have hu : Clean u := hbegin.of_took (took_of_takeLoop hloop)
  have hspec := (takeLoop_spec hloop).2
  cases taken with
  | none => exact hu.restoreMask h.restore
  | some taken =>
    obtain ⟨sig, verdict⟩ := taken
    cases verdict with
    | ignore => exact hu.restoreMask h.restore
    | terminate | core => exact hu
    | stop =>
      have hstopped : Clean { u with stopped := true } := { hu with }
      exact hstopped.restoreMask h.restore
    | handler mask =>
      dsimp only [Thread.settle]
      split
      · exact hu
      · have hmask := free_of_verdict (ha sig) (hspec sig _ rfl).1.symm
        refine { hu with blocked := hu.blocked.union hmask, stack := ?_ }
        intro m hm
        obtain rfl | hm := mem_cons.1 hm
        · cases hrestore : t.restore with
          | none => exact hu.blocked
          | some original => exact h.restore original hrestore
        · exact hu.stack m hm

/-- The thread once `sigreturn` has restored its mask. -/
def Thread.popped (t : Thread) : Thread :=
  { t with stack := t.stack.tail, blocked := t.stack.headD ∅ }

theorem sigreturn_eq (h : t.sigreturn actions n faults = some r) :
    t.stack ≠ [] ∧ t.popped.deliver actions n true faults = some r := by
  rw [Thread.sigreturn] at h
  split at h
  · cases h
  · rename_i mask rest hstack
    rw [Thread.popped, hstack]
    exact ⟨cons_ne_nil _ _, h⟩

theorem Clean.popped (h : Clean t) : Clean t.popped := by
  refine { h with blocked := ?_, stack := fun m hm ↦ h.stack m (mem_of_mem_tail hm) }
  rw [Thread.popped]
  cases hstack : t.stack with
  | nil => exact ⟨Finset.notMem_empty _, Finset.notMem_empty _⟩
  | cons mask rest =>
    refine h.stack mask ?_
    rw [hstack]
    exact mem_cons_self ..

theorem Clean.own (h : Clean t) (ha : ∀ sig, Sound sig (actions sig))
    (hown : t.own actions n a = some t') : Clean t' := by
  cases a with
  | sigprocmask how set =>
    cases hown
    exact h.sigprocmask how set
  | beginTemporary set =>
    cases hown
    exact h.beginTemporary
  | endTemporary =>
    cases hown
    exact h.endTemporary
  | sigtimedwait set late =>
    obtain ⟨r, hr, rfl⟩ := map_eq_some_iff.1 hown
    exact h.sigtimedwait hr
  | returnToUser faults =>
    obtain ⟨r, hr, rfl⟩ := map_eq_some_iff.1 hown
    exact h.deliver ha hr
  | sigreturn faults =>
    obtain ⟨r, hr, rfl⟩ := map_eq_some_iff.1 hown
    exact h.popped.deliver ha (sigreturn_eq hr).2
  | sigaction | resume | send | clone | fork | exec | exit | exitGroup =>
    cases hown
    exact h

/-! ## Dying of `SIGKILL` -/

/-- The verdict ends the process. -/
def Verdict.fatal (faults : Bool) : Verdict → Bool
  | .terminate | .core => true
  | .handler _ => faults
  | .ignore | .stop => false

/-- Up to `SIGKILL` there is a deliverable signal that ends the process, those before it are ignored,
and a chained delivery has a budget for all of them. -/
def Dies (actions : Sig → SigAction) (chained faults : Bool) (t : Thread) : Prop :=
  ∃ k ≤ sigKill, k ∈ t.deliverable ∧ (verdict (actions k) k).fatal faults = true ∧
    ∀ j ≤ k, j ∈ t.deliverable → (j < k → verdict (actions j) j = .ignore) ∧
      (chained = true → t.budget.any (·.covers j) = true)
  deriving Decidable

theorem settle_snd {restore : Option Sigset} {taken : Option (Sig × Verdict)} :
    (t.settle restore faults taken).2 = true ↔
      ∃ sig v, taken = some (sig, v) ∧ v.fatal faults = true := by
  rw [Thread.settle.eq_def]
  split
  · simp
  · simp [Verdict.fatal]
  · simp [Verdict.fatal]
  · simp [Verdict.fatal]
  · simp [Verdict.fatal]
  · cases faults <;> simp [Verdict.fatal]

theorem isRt_of_le_sigKill (h : sig ≤ sigKill) : isRt sig = false := by
  rw [isRt, decide_eq_false_iff_not]
  exact fun hrt ↦ absurd (hrt.trans h) (by decide)

/-- Taking a signal that is not queued leaves the others and their budget. -/
theorem mem_deliverable_of_take (hrt : isRt sig = false) (h : t.take chained sig = some t') :
    k ∈ t'.deliverable ↔ k ≠ sig ∧ k ∈ t.deliverable := by
  obtain ⟨id, u, hconsume, heq⟩ := consume_of_take h
  obtain ⟨-, -, rfl⟩ | ⟨hrt', -⟩ := consume_cases hconsume
  · rw [heq]
    simp [Thread.deliverable, and_assoc]
  · rw [hrt] at hrt'
    cases hrt'

theorem covers_of_take (hrt : isRt sig = false) (hne : k ≠ sig)
    (h : t.take chained sig = some t') :
    t'.budget.any (·.covers k) = t.budget.any (·.covers k) := by
  obtain ⟨id, u, hconsume, ⟨hbudget, rfl⟩ | ⟨b, b', hbudget, hspend, rfl⟩⟩ := take_cases h
  · obtain ⟨-, -, rfl⟩ | ⟨hrt', -⟩ := consume_cases hconsume
    · rfl
    · rw [hrt] at hrt'
      cases hrt'
  · rw [Budget.spend, if_neg (by simp [hrt])] at hspend
    cases hspend
    simp [hbudget, Budget.covers, hne]

/-- The signals before the one that ends the process are taken and ignored. -/
theorem takeLoop_dies (hload : t.load < fuel) (hdies : Dies actions chained faults t)
    {r : Thread × Option (Sig × Verdict)} (h : takeLoop actions chained fuel t = some r) :
    ∃ sig v, r.2 = some (sig, v) ∧ v.fatal faults = true := by
  induction fuel generalizing t with
  | zero => exact absurd hload (Nat.not_lt_zero _)
  | succ fuel ih =>
    obtain ⟨k, hk, hmem, hfatal, hbefore⟩ := hdies
    have hmax : k ≤ sigRtMax := hk.trans (by decide)
    obtain ⟨j, hjk, hlow⟩ := lowest_le hmem hmax
    have hj := (lowest_eq_some hlow).1
    obtain ⟨hignored, hcovers⟩ := hbefore j hjk hj
    obtain ⟨-, -, hstop⟩ | ⟨sig, t', hturn, hr⟩ := takeLoop_succ h
    · obtain ⟨hchained, hnot⟩ := hstop j hlow
      rw [hcovers hchained] at hnot
      cases hnot
    · have hsig : sig = j := some_inj.1 (hturn.1.symm.trans hlow)
      subst hsig
      obtain ⟨hverdict, rfl⟩ | ⟨hignore, h⟩ := hr
      · have heq : sig = k := by
          by_contra hne
          exact hverdict (hignored (lt_of_le_of_ne hjk hne))
        subst heq
        exact ⟨sig, _, rfl, hfatal⟩
      · have hne : sig ≠ k := by
          rintro rfl
          rw [hignore] at hfatal
          cases hfatal
        have hrt := isRt_of_le_sigKill (hjk.trans hk)
        have htake := hturn.2.2
        have hlt := load_lt_of_take (Finset.mem_sdiff.1 hj).1 (hjk.trans hmax) htake
        refine ih (by omega) ⟨k, hk, (mem_deliverable_of_take hrt htake).2 ⟨hne.symm, hmem⟩,
          hfatal, fun i hik hi ↦ ?_⟩ h
        obtain ⟨hi, hmemi⟩ := (mem_deliverable_of_take hrt htake).1 hi
        rw [covers_of_take hrt hi htake]
        exact hbefore i hik hmemi

/-- And nothing else ends a process that has `SIGKILL` pending. -/
theorem dies_of_takeLoop (hkill : sigKill ∈ t.deliverable)
    (haction : (verdict (actions sigKill) sigKill).fatal faults = true)
    {r : Thread × Option (Sig × Verdict)} (h : takeLoop actions chained fuel t = some r)
    {v : Verdict} (hv : r.2 = some (sig, v)) (hfatal : v.fatal faults = true) :
    Dies actions chained faults t := by
  induction fuel generalizing t with
  | zero =>
    cases h
    cases hv
  | succ fuel ih =>
    obtain ⟨hnone, -⟩ | ⟨j, t', hturn, hr⟩ := takeLoop_succ h
    · rw [hnone] at hv
      cases hv
    obtain ⟨j', hj', hlow⟩ := lowest_le hkill (by decide)
    obtain rfl : j = j' := some_inj.1 (hturn.1.symm.trans hlow)
    obtain ⟨hj, -, hfirst⟩ := lowest_eq_some hlow
    obtain ⟨-, rfl⟩ | ⟨hignore, h⟩ := hr
    · cases hv
      refine ⟨sig, hj', hj, hfatal, fun i hi hmem ↦ ?_⟩
      obtain rfl : i = sig := by
        by_contra hne
        exact hfirst i (lt_of_le_of_ne hi hne) hmem
      exact ⟨fun hlt ↦ absurd hlt (lt_irrefl _), hturn.2.1⟩
    · have hrt := isRt_of_le_sigKill hj'
      have hne : sigKill ≠ j := by
        rintro rfl
        rw [hignore] at haction
        cases haction
      have hdel {i : Sig} := mem_deliverable_of_take (k := i) hrt hturn.2.2
      obtain ⟨k, hk, hmem, hkfatal, hbefore⟩ := ih (hdel.2 ⟨hne, hkill⟩) h
      refine ⟨k, hk, (hdel.1 hmem).2, hkfatal, fun i hi himem ↦ ?_⟩
      obtain rfl | hij := eq_or_ne i j
      · exact ⟨fun _ ↦ hignore, hturn.2.1⟩
      · have hi' := hbefore i hi (hdel.2 ⟨hij, himem⟩)
        rwa [covers_of_take hrt hij hturn.2.2] at hi'

theorem begin_deliverable : (t.begin n chained).deliverable = t.deliverable := by
  rw [Thread.begin]
  split <;> rfl

theorem begin_load : (t.begin n chained).load = t.load := by
  rw [Thread.begin]
  split <;> rfl

theorem dies_begin : Dies actions chained faults (t.begin n chained) ↔
    Dies actions chained faults t := by
  cases chained with
  | true => rfl
  | false =>
    rw [Dies, Dies, begin_deliverable]
    simp

/-- **When a delivery ends a process that has `SIGKILL` pending.** -/
theorem deliver_dies (hkill : sigKill ∈ t.deliverable) (haction : (actions sigKill).handler = .dfl)
    (h : t.deliver actions n chained faults = some r) :
    r.2 = true ↔ Dies actions chained faults t := by
  obtain ⟨u, hloop, rfl⟩ := map_eq_some_iff.1 h
  have hfatal : (verdict (actions sigKill) sigKill).fatal faults = true := by
    rw [verdict, haction]
    rfl
  -- the mask to restore plays no part
  change _ ↔ Dies actions chained faults { t with restore := none }
  rw [settle_snd, ← dies_begin]
  constructor
  · rintro ⟨sig, v, hv, hdies⟩
    refine dies_of_takeLoop ?_ hfatal hloop hv hdies
    rwa [begin_deliverable]
  · intro hdies
    refine takeLoop_dies ?_ hdies hloop
    rw [begin_load]
    exact Nat.lt_succ_self _

/-! ## Runs -/

/-- What a note must say. -/
def Note.Ok : Note → Prop
  | .waited _ sig => Free {sig}
  | .returned _ killed died => killed = true → died = true
  | .exited .. => True

instance : DecidablePred Note.Ok := fun n ↦ by
  cases n <;> unfold Note.Ok <;> infer_instance

namespace Mask

/-- The two signals are not held off. -/
structure Safe (s : St) : Prop where
  blocked : ∀ p t, s.threads p = some t → Free t.blocked
  log : ∀ n ∈ s.log, n.Ok

/-- The thread will die of `SIGKILL`, if it is pending, at a return to user mode. -/
def Mortal (s : St) (chained faults : Bool) (t : Thread) : Prop :=
  sigKill ∈ t.pending → t.tgid ≠ initPid → Dies (s.actions t.shared) chained faults t
  deriving Decidable

/-- `sigaction` is not given a mask with the signals for a handler, `sigtimedwait` does not find one
of them first, a delivery ends the process if `SIGKILL` is pending, and no return without a delivery
is made then. -/
def Proper (s : St) : Event → Prop
  | .act _ (.sigaction _ a) => a.handler = .caught → Free a.mask
  | .act p (.sigtimedwait set _) =>
    ∀ t ∈ s.threads p, ∀ sig ∈ lowest (t.pending ∩ set), Free {sig}
  | .act p (.returnToUser faults) => ∀ t ∈ s.threads p, Mortal s false faults t
  | .act p (.sigreturn faults) =>
    ∀ t ∈ s.threads p, t.stack ≠ [] → Mortal s true faults t.popped
  | .act p .resume => ∀ t ∈ s.threads p, sigKill ∈ t.pending → t.tgid = initPid
  | _ => True

instance : Decidable (Proper s e) := by
  unfold Proper
  split <;> infer_instance

/-- What a proper run keeps. -/
structure Inv (s : St) : Prop where
  clean : s.All fun _ t ↦ Clean t
  sound : s.Actions Sound
  log : ∀ n ∈ s.log, n.Ok

theorem Inv.safe (h : Inv s) : Safe s := ⟨fun p t ht ↦ (h.clean p t ht).blocked, h.log⟩

theorem sigtimedwait_snd {r : Thread} {late : Bool}
    (h : t.sigtimedwait set late = some (r, some sig)) : lowest (t.pending ∩ set) = some sig := by
  rw [Thread.sigtimedwait] at h
  split at h
  · cases h
  · rename_i k hlow
    obtain ⟨⟨id, u⟩, -, heq⟩ := map_eq_some_iff.1 h
    cases heq
    exact hlow

variable {p : Pid} {r : Thread × Bool}

/-- A return to user mode is noted as it should be just when the process dies that must. -/
theorem deliver_ok (hs : Inv s) (hclean : Clean t)
    (h : t.deliver (s.actions t.shared) s.clock chained faults = some r) :
    Note.Ok (.returned p (sigKill ∈ t.pending && t.tgid ≠ initPid) r.2) ↔
      Mortal s chained faults t := by
  simp only [Note.Ok, Bool.and_eq_true, decide_eq_true_eq, and_imp]
  refine forall_congr' fun hkill ↦ forall_congr' fun _ ↦ ?_
  have hdel : sigKill ∈ t.deliverable := Finset.mem_sdiff.2 ⟨hkill, hclean.blocked.1⟩
  exact deliver_dies hdel ((hs.sound t.shared sigKill).2 (.inl rfl)) h

theorem goesBack_ok (hs : Inv s) (ht : s.threads p = some t) (h : GoesBack s e p t r) :
    Note.Ok (.returned p (sigKill ∈ t.pending && t.tgid ≠ initPid) r.2) ↔ Proper s e := by
  have hclean := hs.clean p t ht
  obtain ⟨faults, ⟨rfl, h⟩ | ⟨rfl, h⟩⟩ | ⟨rfl, rfl⟩ := h
  · rw [deliver_ok hs hclean h]
    simp [Proper, ht]
  · obtain ⟨hstack, h⟩ := sigreturn_eq h
    refine (deliver_ok hs hclean.popped h).trans ?_
    simp [Proper, ht, hstack]
  · simp [Note.Ok, Proper, ht]

/-- **A proper step keeps the invariant.** -/
theorem step_inv (hs : Inv s) (h : step s e = some s') (hproper : Proper s e) : Inv s' where
  clean := step_all closed_clean hs.clean (fun p t _ _ ht _ hown ↦
    (hs.clean p t ht).own (hs.sound t.shared) hown) h
  sound := by
    refine step_actions Sound.default hs.sound (fun p sig action he hkill hstop ↦ ?_) h
    subst he
    refine ⟨hproper, ?_⟩
    rintro (hsig | hsig)
    · exact absurd hsig hkill
    · exact absurd hsig hstop
  log := by
    obtain hlog | ⟨p, t, set, late, r, sig, rfl, ht, hr, hlog⟩ | ⟨p, t, r, ht, -, hdel, hlog⟩ |
      ⟨p, t, rfl, ht, hlog⟩ := step_log h
    · rw [hlog]
      exact hs.log
    · rw [hlog, forall_mem_cons]
      exact ⟨hproper t ht sig (sigtimedwait_snd hr), hs.log⟩
    · rw [hlog, forall_mem_cons]
      exact ⟨(goesBack_ok hs ht hdel).2 hproper, hs.log⟩
    · rw [hlog, forall_mem_cons]
      exact ⟨trivial, hs.log⟩

theorem boot_inv : Inv St.boot where
  clean := by
    intro p t ht
    simp only [St.boot, update_apply] at ht
    split at ht
    · cases ht
      exact ⟨by decide, by simp [Thread.fresh], nofun, nofun⟩
    · cases ht
  sound _ sig := Sound.default sig
  log := nofun

theorem proper_of_goBack (hs : Inv s) (ht : s.threads p = some t) (hback : GoesBack s e p t r)
    (hsafe : Safe (s.goBack p t r)) : Proper s e := by
  refine (goesBack_ok hs ht hback).1 (hsafe.log _ ?_)
  exact mem_cons_self ..

/-- A step that is not proper holds one of the signals off. -/
theorem proper_of_safe (hs : Inv s) (h : step s e = some s') (hsafe : Safe s')
    (he : ∀ p sig action, e ≠ .act p (.sigaction sig action)) : Proper s e := by
  cases e with
  | post | timer | sleep | wake => trivial
  | act p a =>
    obtain ⟨t, ht, -, h⟩ := step_act h
    obtain ⟨set, late, ⟨u, sig⟩, rfl, -, -, hr, rfl⟩ | ⟨rfl, -, rfl⟩ | ⟨-, h⟩ := perform_cases h
    · intro u' hu' k hk
      obtain rfl : t = u' := some_inj.1 (ht.symm.trans hu')
      rw [Thread.sigtimedwait, hk] at hr
      obtain ⟨⟨id, v⟩, -, heq⟩ := map_eq_some_iff.1 hr
      cases heq
      exact hsafe.log (.waited p k) (mem_cons_self ..)
    · trivial
    · cases a with
      | sigtimedwait | endTemporary => cases h
      | sigaction sig action => exact absurd rfl (he p sig action)
      | sigprocmask | beginTemporary | send | clone | fork | exec | exit | exitGroup => trivial
      | returnToUser faults =>
        obtain ⟨r, hr, rfl⟩ := map_eq_some_iff.1 h
        exact proper_of_goBack hs ht (.inl ⟨faults, .inl ⟨rfl, hr⟩⟩) hsafe
      | sigreturn faults =>
        obtain ⟨r, hr, rfl⟩ := map_eq_some_iff.1 h
        exact proper_of_goBack hs ht (.inl ⟨faults, .inr ⟨rfl, hr⟩⟩) hsafe
      | resume =>
        cases h
        exact proper_of_goBack hs ht (.inr ⟨rfl, rfl⟩) hsafe

/-- **`SIGKILL` and `SIGSTOP` cannot be held off in a proper run**, and a step of one that is not
proper, other than the `sigaction` that sets a mask for later, holds one of them off. -/
theorem run_unblockable (hC : Meets step Proper St.boot es) (hrun : run step St.boot es = some s) :
    Safe s ∧ ∀ e s', step s e = some s' →
      (∀ p sig action, e ≠ .act p (.sigaction sig action)) → (Safe s' ↔ Proper s e) := by
  have hs : Inv s := run_inv (fun _ _ _ hproper hs h ↦ step_inv hs h hproper) boot_inv hC hrun
  exact ⟨hs.safe, fun e s' h he ↦
    ⟨fun hsafe ↦ proper_of_safe hs h hsafe he, fun hproper ↦ (step_inv hs h hproper).safe⟩⟩

/-- A process blocks all it can, kills itself and dies. -/
theorem run_unblockable_selfKill : ∃ s, run step St.boot
      [.act 1 .fork, .act 2 (.sigprocmask 2 {9, 10, 19}), .act 2 (.returnToUser false),
        .act 2 (.send 2 9 false), .act 2 (.returnToUser false)] = some s ∧
    .returned 2 true true ∈ s.log ∧ Safe s :=
  exists_run_and (by decide +kernel) fun _ hrun ↦ (run_unblockable (by decide +kernel) hrun).1

/-- A handler whose `sa_mask` holds `SIGKILL` runs with it blocked, and the process goes back to user
mode with it pending; a thread whose sibling sends it `SIGINT`, for which it has a handler, and
`SIGKILL` runs the handler; one whose sibling sends it `SIGKILL` while it runs a handler goes on with
the handler after a timer interrupt; and `sigtimedwait` returns a `SIGKILL` that a sibling sends. -/
theorem sigKill_held_off :
    (∃ s, run step St.boot
      [.act 1 .fork, .act 1 (.returnToUser false),
        .act 2 (.sigaction 10 ⟨.caught, {9}, false, false, false⟩), .act 2 (.returnToUser false),
        .act 1 (.send 2 10 false), .act 1 (.returnToUser false), .act 2 (.returnToUser false),
        .act 1 (.send 2 9 false), .act 1 (.returnToUser false), .act 2 (.returnToUser false)] =
          some s ∧
      (s.threads 2).any (fun t ↦ t.live && sigKill ∈ t.blocked) = true ∧
      .returned 2 true false ∈ s.log) ∧
    (∃ s, run step St.boot
      [.act 1 .fork, .act 2 (.sigaction 2 ⟨.caught, ∅, false, false, false⟩),
        .act 2 (.returnToUser false), .act 2 .clone, .act 2 (.returnToUser false),
        .act 3 (.send 2 2 false), .act 3 (.returnToUser false), .act 3 (.send 2 9 false),
        .act 3 (.returnToUser false), .act 2 (.returnToUser false)] = some s ∧
      .returned 2 true false ∈ s.log) ∧
    (∃ s, run step St.boot
      [.act 1 .fork, .act 2 (.sigaction 10 ⟨.caught, ∅, false, false, false⟩),
        .act 2 (.returnToUser false), .act 2 .clone, .act 2 (.send 2 10 false),
        .act 2 (.returnToUser false), .act 3 (.send 2 9 false), .act 3 (.returnToUser false),
        .act 2 .resume] = some s ∧
      .returned 2 true false ∈ s.log) ∧
    ∃ s, run step St.boot
      [.act 1 .fork, .act 2 .clone, .act 2 (.returnToUser false), .act 3 (.sigtimedwait {9} false),
        .act 2 (.send 2 9 false), .act 2 (.returnToUser false), .wake 3,
        .act 3 (.sigtimedwait {9} false)] = some s ∧
      .waited 3 9 ∈ s.log :=
  ⟨exists_run _ (by decide +kernel), exists_run _ (by decide +kernel),
    exists_run _ (by decide +kernel), exists_run _ (by decide +kernel)⟩

end Mask
end OxideBSD.Signals
