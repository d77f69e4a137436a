import OxideBSD.Lib.Machine

/-!
# `flock` locks

`sys/kern/vfs_advlock.rs`: whole-file locks on vnodes, held by open file descriptions, shared or
exclusive.  A request that conflicts with a lock of another description gives up what its own
description holds and sleeps; every path that removes or weakens a lock wakes the sleepers of the
vnode, and each looks again.  One turn of the loop of `flock` runs without interruption, so a turn is
one event of the machine below and a list of events is one interleaving.

* `turn` is one turn of the loop, `St.step` what each event does.
* `Safe` is what the locks are for: an exclusive lock is alone on its vnode, a description has one
  lock on a vnode at most, and who sleeps has a reason to.
* `step_safe`, `run_safe`: that holds of every run.
-/

set_option autoImplicit false

namespace OxideBSD.Flock

open Function List

/-! ## One turn of the loop -/

def lockSh : UInt32 := 1
def lockEx : UInt32 := 2
def lockNb : UInt32 := 4
def lockUn : UInt32 := 8

def EINTR : Nat := 4
def EAGAIN : Nat := 11
def EINVAL : Nat := 22

/-- A lock on a vnode, held by a description. -/
structure Lock where
  vnode : Nat
  handle : Nat
  exclusive : Bool
  deriving DecidableEq, Repr

/-- A call of `flock`. -/
structure Request where
  vnode : Nat
  handle : Nat
  op : UInt32
  deriving DecidableEq, Repr

/-- The locks without those of a description on a vnode. -/
def without (vnode handle : Nat) (locks : List Lock) : List Lock :=
  locks.filter fun l ↦ ¬ (l.vnode = vnode ∧ l.handle = handle)

namespace Request

def exclusive (r : Request) : Bool := r.op &&& lockEx != 0

def unlock (r : Request) : Bool := r.op &&& lockUn != 0

def nonblocking (r : Request) : Bool := r.op &&& lockNb != 0

/-- The operation asks for nothing. -/
def invalid (r : Request) : Bool := !r.unlock && !r.exclusive && r.op &&& lockSh == 0

/-- A lock of the request's own description on its vnode. -/
def Own (r : Request) (l : Lock) : Prop := l.vnode = r.vnode ∧ l.handle = r.handle

/-- A lock of another description that does not go together with what is requested. -/
def Conflicts (r : Request) (l : Lock) : Prop :=
  l.vnode = r.vnode ∧ l.handle ≠ r.handle ∧ (r.exclusive = true ∨ l.exclusive = true)

instance (r : Request) (l : Lock) : Decidable (r.Own l) := inferInstanceAs (Decidable (_ ∧ _))

instance (r : Request) (l : Lock) : Decidable (r.Conflicts l) :=
  inferInstanceAs (Decidable (_ ∧ _ ∧ _))

/-- The lock the request asks for. -/
def lock (r : Request) : Lock := ⟨r.vnode, r.handle, r.exclusive⟩

/-- The first lock of the request's description becomes of the kind requested: the kind it was, and
the locks then.  `none` if there is no such lock. -/
def convert (r : Request) : List Lock → Option (Bool × List Lock)
  | [] => none
  | l :: locks =>
    if r.Own l then some (l.exclusive, { l with exclusive := r.exclusive } :: locks)
    else (r.convert locks).map fun p ↦ (p.1, l :: p.2)

end Request

/-- How a turn ends. -/
inductive Turn
  | returns (errno : Nat)
  /-- The process sleeps until it is woken. -/
  | sleeps
  deriving DecidableEq, Repr

/-- One turn of the loop: how it ends, the locks after it, and whether the sleepers of the vnode are
woken. -/
def turn (r : Request) (locks : List Lock) : Turn × List Lock × Bool :=
  if r.unlock then (.returns 0, without r.vnode r.handle locks, true)
  else if ∀ l ∈ locks, ¬ r.Conflicts l then
    match r.convert locks with
    -- a downgrade lets shared waiters in
    | some (was, locks') => (.returns 0, locks', was && !r.exclusive)
    | none => (.returns 0, locks ++ [r.lock], false)
  else
    -- a conversion that has to wait gives up the lock it holds first
    let kept := without r.vnode r.handle locks
    (if r.nonblocking then .returns EAGAIN else .sleeps, kept, kept.length ≠ locks.length)

/-! ## The machine -/

/-- Where a process is with its last call. -/
inductive Call
  /-- In the loop, asleep or about to look again. -/
  | waiting (r : Request) (asleep : Bool)
  | returned (errno : Nat)
  deriving DecidableEq, Repr

/-- The locks, and the processes that called `flock`. -/
structure St where
  locks : List Lock
  calls : Nat → Option Call

/-- What a process does between two points where others may run, or what happens to it. -/
inductive Event
  | flock (pid : Nat) (r : Request)
  /-- A process that was woken looks again, or returns if a caught signal is pending. -/
  | resume (pid : Nat) (interrupted : Bool)
  /-- A sleeper is made to run by something else than a release: a signal. -/
  | wake (pid : Nat)
  /-- The process ends. -/
  | exit (pid : Nat)
  /-- `release_all`, at the description's last close. -/
  | releaseAll (vnode handle : Nat)

/-- The sleepers of `vnode` are to look again. -/
def Call.wake (vnode : Nat) : Call → Call
  | .waiting r asleep => .waiting r (asleep && r.vnode != vnode)
  | .returned e => .returned e

namespace St

/-- `wake_waiters`. -/
def wakeWaiters (s : St) (vnode : Nat) : St :=
  { s with calls := fun pid ↦ (s.calls pid).map (Call.wake vnode) }

/-- A turn of the loop by process `pid`; its own sleep begins before the others are woken. -/
def take (s : St) (pid : Nat) (r : Request) : St :=
  let t := turn r s.locks
  let call := match t.1 with
    | .returns e => Call.returned e
    | .sleeps => .waiting r true
  let s := { s with locks := t.2.1, calls := update s.calls pid (some call) }
  if t.2.2 then s.wakeWaiters r.vnode else s

/-- `release_all`. -/
def releaseAll (s : St) (vnode handle : Nat) : St :=
  let locks := without vnode handle s.locks
  let s' := { s with locks := locks }
  if decide (locks.length ≠ s.locks.length) then s'.wakeWaiters vnode else s'

def step (s : St) : Event → Option St
  | .flock pid r =>
    match s.calls pid with
    | some (.waiting _ _) => none
    | _ =>
      if r.invalid then
        some { s with calls := update s.calls pid (some (.returned EINVAL)) }
      else some (s.take pid r)
  | .resume pid interrupted =>
    match s.calls pid with
    | some (.waiting r false) =>
      if interrupted then
        some { s with calls := update s.calls pid (some (.returned EINTR)) }
      else some (s.take pid r)
    | _ => none
  | .wake pid =>
    match s.calls pid with
    | some (.waiting r true) =>
      some { s with calls := update s.calls pid (some (.waiting r false)) }
    | _ => none
  | .exit pid => some { s with calls := update s.calls pid none }
  | .releaseAll vnode handle => some (s.releaseAll vnode handle)

/-- No lock yet, no call. -/
def init : St := ⟨[], fun _ ↦ none⟩

end St

/-! ## What holds of every run -/

/-- Locks that may stand together. -/
structure Compatible (locks : List Lock) : Prop where
  /-- An exclusive lock is alone on its vnode. -/
  alone : ∀ l ∈ locks, ∀ l' ∈ locks, l.vnode = l'.vnode → l.handle ≠ l'.handle →
    l.exclusive = false
  /-- A description has one lock on a vnode at most. -/
  single : (locks.map fun l ↦ (l.vnode, l.handle)).Nodup

/-- The locks may stand together, and whoever sleeps waits for a lock of another description. -/
structure Safe (s : St) : Prop where
  locks : Compatible s.locks
  reason : ∀ pid r, s.calls pid = some (.waiting r true) → ∃ l ∈ s.locks, r.Conflicts l

/-! ## A turn -/

section Turn

variable {r q : Request} {locks locks' : List Lock} {l : Lock} {was : Bool}

theorem Request.lock_of_own (h : r.Own l) : { l with exclusive := r.exclusive } = r.lock := by
  rw [lock, ← h.1, ← h.2]

/-- A conversion replaces one lock, of the request's description. -/
theorem Request.convert_eq_some (h : r.convert locks = some (was, locks')) :
    ∃ before l after, locks = before ++ l :: after ∧ r.Own l ∧ l.exclusive = was
      ∧ locks' = before ++ r.lock :: after := by
  induction locks generalizing locks' with
  | nil => cases h
  | cons l locks ih =>
    rw [convert] at h
    split at h
    · next hown =>
      cases h
      exact ⟨[], l, locks, rfl, hown, rfl, by rw [nil_append, lock_of_own hown]⟩
    · obtain ⟨p, hp, heq⟩ := Option.map_eq_some_iff.1 h
      obtain ⟨hwas, rfl⟩ := Prod.mk.inj heq
      obtain ⟨before, m, after, rfl, hown, hexcl, hnew⟩ := ih (hp.trans (by rw [← hwas]))
      exact ⟨l :: before, m, after, rfl, hown, hexcl, by rw [hnew, cons_append]⟩

theorem Request.convert_eq_none (h : r.convert locks = none) : ∀ l ∈ locks, ¬ r.Own l := by
  induction locks with
  | nil => exact fun l hl ↦ absurd hl not_mem_nil
  | cons m locks ih =>
    obtain ⟨hown, h⟩ := of_ite_left h nofun
    intro l hl
    rcases mem_cons.1 hl with rfl | hl
    · exact hown
    · exact ih (Option.map_eq_none_iff.1 h) l hl

theorem mem_without : l ∈ without r.vnode r.handle locks ↔ l ∈ locks ∧ ¬ r.Own l := by
  rw [without, mem_filter, decide_eq_true_iff]
  rfl

/-- A conflicting lock is not the description's own. -/
theorem Request.Conflicts.not_own (h : r.Conflicts l) : ¬ r.Own l := fun hown ↦ h.2.1 hown.2

theorem Compatible.without (h : Compatible locks) (r : Request) :
    Compatible (without r.vnode r.handle locks) := by
  refine ⟨fun l hl l' hl' ↦ ?_, ?_⟩
  · exact h.alone l (mem_without.1 hl).1 l' (mem_without.1 hl').1
  · exact h.single.sublist (filter_sublist.map _)

/-- A lock nothing conflicts with goes together with those there are. -/
theorem Compatible.alone_of_mem (h : Compatible locks) (hfree : ∀ l ∈ locks, ¬ r.Conflicts l)
    (hmem : ∀ l ∈ locks', l ∈ locks ∨ l = r.lock) :
    ∀ l ∈ locks', ∀ l' ∈ locks', l.vnode = l'.vnode → l.handle ≠ l'.handle →
      l.exclusive = false := by
  have hnew : ∀ l ∈ locks, l.vnode = r.vnode → l.handle ≠ r.handle →
      r.exclusive = false ∧ l.exclusive = false := by
    intro l hl hvnode hhandle
    have hno := hfree l hl
    rw [Request.Conflicts, not_and, not_and] at hno
    simpa using hno hvnode hhandle
  intro l hl l' hl' hvnode hhandle
  rcases hmem l hl with hold | rfl <;> rcases hmem l' hl' with hold' | rfl
  · exact h.alone l hold l' hold' hvnode hhandle
  · exact (hnew l hold hvnode hhandle).2
  · exact (hnew l' hold' hvnode.symm hhandle.symm).1
  · exact absurd rfl hhandle

/-- Nothing that conflicts with a request is gone. -/
def Keeps (locks locks' : List Lock) : Prop :=
  ∀ q : Request, (∃ l ∈ locks, q.Conflicts l) → ∃ l ∈ locks', q.Conflicts l

/-- What a turn does: the locks it leaves go together, those of other vnodes stay, who is not woken
keeps the reason to sleep, and so has the caller if it sleeps. -/
structure Turned (r : Request) (locks : List Lock) (t : Turn × List Lock × Bool) : Prop where
  compatible : Compatible t.2.1
  others : ∀ l ∈ locks, l.vnode ≠ r.vnode → l ∈ t.2.1
  keeps : t.2.2 = false → Keeps locks t.2.1
  sleeps : t.1 = .sleeps → ∃ l ∈ t.2.1, r.Conflicts l

/-- The lock taken by conversion. -/
theorem turned_convert (h : Compatible locks) (hfree : ∀ l ∈ locks, ¬ r.Conflicts l)
    (hconv : r.convert locks = some (was, locks')) :
    Turned r locks (.returns 0, locks', was && !r.exclusive) := by
  obtain ⟨before, m, after, rfl, hown, rfl, rfl⟩ := Request.convert_eq_some hconv
  have hkey : (r.lock.vnode, r.lock.handle) = (m.vnode, m.handle) := by
    rw [hown.1, hown.2]
    rfl
  refine ⟨⟨h.alone_of_mem hfree fun l hl ↦ ?_, ?_⟩, fun l hl hne ↦ ?_, fun hwoken q hq ↦ ?_, nofun⟩
  · simp only [mem_append, mem_cons] at hl ⊢
    tauto
  · have hsingle := h.single
    rw [map_append, map_cons] at hsingle ⊢
    rw [hkey]
    exact hsingle
  · simp only [mem_append, mem_cons] at hl ⊢
    rcases hl with hl | rfl | hl
    · exact Or.inl hl
    · exact absurd hown.1 hne
    · exact Or.inr (Or.inr hl)
  · obtain ⟨l, hl, hconf⟩ := hq
    simp only [mem_append, mem_cons] at hl ⊢
    rcases hl with hl | rfl | hl
    · exact ⟨l, Or.inl hl, hconf⟩
    · -- the converted lock still conflicts, as it has not been downgraded
      refine ⟨r.lock, Or.inr (Or.inl rfl), hown.1.symm.trans hconf.1,
        fun heq ↦ hconf.2.1 (hown.2.trans heq), ?_⟩
      rcases hconf.2.2 with hq | hl
      · exact Or.inl hq
      · have hkind : r.exclusive = true := by simpa [hl] using hwoken
        exact Or.inr hkind
    · exact ⟨l, Or.inr (Or.inr hl), hconf⟩

/-- A new lock. -/
theorem turned_push (h : Compatible locks) (hfree : ∀ l ∈ locks, ¬ r.Conflicts l)
    (hnone : r.convert locks = none) : Turned r locks (.returns 0, locks ++ [r.lock], false) := by
  refine ⟨⟨h.alone_of_mem hfree fun l hl ↦ ?_, ?_⟩, fun l hl _ ↦ mem_append_left _ hl,
    fun _ q hq ↦ ?_, nofun⟩
  · simpa using hl
  · rw [map_append]
    refine h.single.append (nodup_singleton _) ?_
    rw [map_singleton, disjoint_singleton]
    intro hmem
    obtain ⟨l, hl, hkey⟩ := mem_map.1 hmem
    exact Request.convert_eq_none hnone l hl (Prod.mk.inj hkey)
  · obtain ⟨l, hl, hconf⟩ := hq
    exact ⟨l, mem_append_left _ hl, hconf⟩

/-- The description's lock is given up. -/
theorem turned_without (h : Compatible locks) {t : Turn} {woken : Bool}
    (hwoken : woken = false → without r.vnode r.handle locks = locks)
    (hsleeps : t = .sleeps → ∃ l ∈ locks, r.Conflicts l) :
    Turned r locks (t, without r.vnode r.handle locks, woken) := by
  refine ⟨h.without r, fun l hl hne ↦ ?_, fun hno q hq ↦ ?_, fun ht ↦ ?_⟩
  · exact mem_without.2 ⟨hl, fun hown ↦ hne hown.1⟩
  · show ∃ l ∈ without r.vnode r.handle locks, q.Conflicts l
    rwa [hwoken hno]
  · obtain ⟨l, hl, hconf⟩ := hsleeps ht
    exact ⟨l, mem_without.2 ⟨hl, hconf.not_own⟩, hconf⟩

/-- The description's lock is given up, and sleepers are woken if there was one. -/
theorem turned_release (h : Compatible locks) (r : Request) :
    Turned r locks
      (.returns 0, without r.vnode r.handle locks,
        decide ((without r.vnode r.handle locks).length ≠ locks.length)) := by
  refine turned_without h (fun hno ↦ ?_) nofun
  rw [decide_eq_false_iff_not, not_not] at hno
  exact filter_sublist.eq_of_length hno

/-- **A turn of the loop.** -/
theorem turned_turn (h : Compatible locks) (r : Request) : Turned r locks (turn r locks) := by
  rw [turn]
  split
  · exact turned_without h nofun nofun
  · split
    · next hfree =>
      split
      · next hconv => exact turned_convert h hfree hconv
      · next hnone => exact turned_push h hfree hnone
    · next hconf =>
      refine turned_without h (fun hno ↦ ?_) fun _ ↦ ?_
      · rw [decide_eq_false_iff_not, not_not] at hno
        exact filter_sublist.eq_of_length hno
      · simpa using hconf

end Turn

/-! ## Runs -/

section Runs

variable {s s' : St} {pid : Nat} {r : Request}

/-- A sleeper that a release of `vnode` does not wake waits for another vnode. -/
theorem St.calls_wakeWaiters {vnode : Nat}
    (h : (s.wakeWaiters vnode).calls pid = some (.waiting r true)) :
    s.calls pid = some (.waiting r true) ∧ r.vnode ≠ vnode := by
  obtain ⟨call, hcall, hwake⟩ := Option.map_eq_some_iff.1 h
  rw [hcall]
  cases call with
  | waiting q asleep =>
    rw [Call.wake, Call.waiting.injEq, Bool.and_eq_true, bne_iff_ne] at hwake
    obtain ⟨rfl, rfl, hne⟩ := hwake
    exact ⟨rfl, hne⟩
  | returned e => cases hwake

/-- Locks change by a turn and its sleepers are woken if it says so: who sleeps then did so before, or
is the caller, and has a reason to. -/
theorem Safe.of_turned (h : Safe s) {t : Turn × List Lock × Bool} (ht : Turned r s.locks t)
    {calls : Nat → Option Call}
    (hcalls : ∀ pid q, calls pid = some (.waiting q true) →
      s.calls pid = some (.waiting q true) ∨ q = r ∧ t.1 = .sleeps) :
    Safe (if t.2.2 then St.wakeWaiters ⟨t.2.1, calls⟩ r.vnode else ⟨t.2.1, calls⟩) := by
  cases hwoken : t.2.2 with
  | true =>
    refine ⟨ht.compatible, fun pid q hq ↦ ?_⟩
    obtain ⟨hcall, hne⟩ := St.calls_wakeWaiters hq
    rcases hcalls pid q hcall with hold | ⟨rfl, hsleeps⟩
    · obtain ⟨l, hl, hconf⟩ := h.reason pid q hold
      exact ⟨l, ht.others l hl (hconf.1 ▸ hne), hconf⟩
    · exact ht.sleeps hsleeps
  | false =>
    refine ⟨ht.compatible, fun pid q hq ↦ ?_⟩
    rcases hcalls pid q hq with hold | ⟨rfl, hsleeps⟩
    · exact ht.keeps hwoken q (h.reason pid q hold)
    · exact ht.sleeps hsleeps

/-- A turn of a process that is not asleep. -/
theorem Safe.take (h : Safe s) (pid : Nat) (r : Request) : Safe (s.take pid r) := by
  refine h.of_turned (turned_turn h.locks r) fun p q hq ↦ ?_
  by_cases hp : p = pid
  · subst hp
    rw [update_self] at hq
    split at hq
    · cases hq
    · next hsleeps =>
      cases hq
      exact Or.inr ⟨rfl, hsleeps⟩
  · rw [update_of_ne hp] at hq
    exact Or.inl hq

theorem Safe.releaseAll (h : Safe s) (vnode handle : Nat) : Safe (s.releaseAll vnode handle) :=
  h.of_turned (turned_release h.locks ⟨vnode, handle, lockUn⟩) fun _ _ hq ↦ Or.inl hq

/-- A process that is made not to sleep. -/
theorem Safe.update (h : Safe s) (pid : Nat) {call : Option Call}
    (hcall : ∀ r, call ≠ some (.waiting r true)) :
    Safe { s with calls := update s.calls pid call } := by
  refine ⟨h.locks, fun p q hq ↦ ?_⟩
  dsimp only at hq
  by_cases hp : p = pid
  · subst hp
    rw [update_self] at hq
    exact absurd hq (hcall q)
  · rw [update_of_ne hp] at hq
    exact h.reason p q hq

/-- **Every event keeps the locks safe.** -/
theorem step_safe {e : Event} (h : Safe s) (hstep : s.step e = some s') : Safe s' := by
  cases e with
  | flock pid r =>
    rw [St.step] at hstep
    split at hstep
    · cases hstep
    · split at hstep
      · cases hstep
        exact h.update pid nofun
      · cases hstep
        exact h.take pid r
  | resume pid interrupted =>
    rw [St.step] at hstep
    split at hstep
    · next r _ =>
      split at hstep
      · cases hstep
        exact h.update pid nofun
      · cases hstep
        exact h.take pid r
    · cases hstep
  | wake pid =>
    rw [St.step] at hstep
    split at hstep
    · cases hstep
      exact h.update pid nofun
    · cases hstep
  | exit pid =>
    cases hstep
    exact h.update pid nofun
  | releaseAll vnode handle =>
    cases hstep
    exact h.releaseAll vnode handle

/-- **No two locks ever conflict and nobody sleeps without a reason**, whatever the interleaving. -/
theorem run_safe {es : List Event} (hrun : Machine.run St.step St.init es = some s) : Safe s := by
  have hinit : Safe St.init := ⟨⟨nofun, nodup_nil⟩, nofun⟩
  exact Machine.run_keeps (fun _ _ _ ↦ step_safe) hinit hrun

/-- Two descriptions share a lock; one asks for it exclusively, gives its own up and sleeps, and the
other's waiter is left with a reason to. -/
theorem run_safe_upgrade : ∃ s, Machine.run St.step St.init
      [.flock 1 ⟨0, 10, lockSh⟩, .flock 2 ⟨0, 20, lockSh⟩, .flock 1 ⟨0, 10, lockEx⟩, .resume 1 false]
        = some s
    ∧ s.calls 1 = some (.waiting ⟨0, 10, lockEx⟩ true) ∧ Safe s :=
  Machine.exists_run_and (by decide) fun _ ↦ run_safe

end Runs

end OxideBSD.Flock
