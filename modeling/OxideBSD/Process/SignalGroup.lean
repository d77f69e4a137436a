import OxideBSD.Process.SignalMask

/-!
# Signals sent to a process

A signal sent to a process is recorded on one of its threads, chosen by `resolve_signal_recipient`
from the masks and waits of that moment.  The field `owed` of a thread holds the signals recorded on
it that way and not taken since.

* `takes t sig` says that a thread would take the signal: it does not block it, or waits for it.
* `Kept` is what the process is due: if a signal is owed and some live thread of the group would take
  it, a thread it is recorded on would.
* `Kept.put` is the step lemma for one thread that changes: no signal that it ceases to owe, or begins
  to take, may be owed by another, and none that it still owes and ceases to take may be taken by
  another.
* `Proper` says when a step meets this and `run_kept_signals` that in a run of such steps no signal is
  lost or stuck.
-/

set_option autoImplicit false

namespace OxideBSD.Signals.Group

open Function Machine Proc List Option
open Thread (takeLoop)

variable {s s' : St} {e : Event} {es : List Event} {t t' u v : Thread} {sig k : Sig}
  {p q r tgid : Pid} {set : Sigset} {n id : Nat} {chained faults late owed : Bool}
  {actions : Sig → SigAction} {a : Act}

/-! ## What a process is due -/

/-- The thread does not block the signal, or waits for it. -/
def takes (t : Thread) (sig : Sig) : Bool := sig ∉ t.blocked || t.waiting.any (sig ∈ ·)

/-- A live thread of the group `tgid`. -/
structure Member (s : St) (tgid q : Pid) (u : Thread) : Prop where
  thread : s.threads q = some u
  live : u.live = true
  tgid : u.tgid = tgid

/-- An owed signal that a thread of the group would take is owed by one that would. -/
def Kept (s : St) : Prop := ∀ tgid sig q u, Member s tgid q u → sig ∈ u.owed →
  ∀ r v, Member s tgid r v → takes v sig = true →
    ∃ r' v', Member s tgid r' v' ∧ sig ∈ v'.owed ∧ takes v' sig = true

/-- Pids and groups are numbered below `next`. -/
def Fresh (s : St) : Prop := ∀ q u, s.threads q = some u → q < s.next ∧ u.tgid < s.next

/-- The other live threads of a group. -/
def others (s : St) (p tgid : Pid) : List Thread :=
  (List.range s.next).filterMap fun q ↦
    if q = p then none else (s.threads q).filter fun u ↦ u.live && u.tgid = tgid

theorem Member.mem_others (h : Member s tgid q u) (hs : Fresh s) (hne : q ≠ p) :
    u ∈ others s p tgid := by
  refine mem_filterMap.2 ⟨q, mem_range.2 (hs q u h.thread).1, ?_⟩
  rw [if_neg hne, h.thread]
  simp [h.live, h.tgid]

/-- No other thread of the group owes the signal. -/
def Sole (s : St) (p tgid : Pid) (sig : Sig) : Prop := ∀ u ∈ others s p tgid, sig ∉ u.owed
  deriving Decidable

/-- No other thread of the group would take the signal. -/
def Alone (s : St) (p tgid : Pid) (sig : Sig) : Prop :=
  ∀ u ∈ others s p tgid, takes u sig = false
  deriving Decidable

/-! ## One thread changes -/

theorem member_put : Member (s.put p t') tgid q u ↔
    (q = p ∧ u = t' ∧ u.live = true ∧ u.tgid = tgid) ∨ (q ≠ p ∧ Member s tgid q u) := by
  constructor
  · rintro ⟨hthread, hlive, htgid⟩
    simp only [St.put, update_apply] at hthread
    split at hthread
    · rename_i hq
      cases hthread
      exact .inl ⟨hq, rfl, hlive, htgid⟩
    · rename_i hq
      exact .inr ⟨hq, hthread, hlive, htgid⟩
  · rintro (⟨rfl, rfl, hlive, htgid⟩ | ⟨hne, hthread, hlive, htgid⟩)
    · exact ⟨by simp [St.put], hlive, htgid⟩
    · exact ⟨by simpa [St.put, hne] using hthread, hlive, htgid⟩

/-- What a change of the thread `p` from `t` to `t'` may do. -/
structure Change (s : St) (p : Pid) (t t' : Thread) : Prop where
  tgid : t'.tgid = t.tgid
  live : t'.live = t.live
  owed : t'.owed ⊆ t.owed
  lost : ∀ sig ∈ t.owed, sig ∉ t'.owed → Sole s p t.tgid sig
  opened : ∀ sig, takes t' sig = true → takes t sig = false → Sole s p t.tgid sig
  shut : ∀ sig ∈ t'.owed, takes t sig = true → takes t' sig = false → Alone s p t.tgid sig

theorem Kept.put (h : Kept s) (hs : Fresh s) (ht : s.threads p = some t) (hc : Change s p t t') :
    Kept (s.put p t') := by
  intro g sig q u hu howed r v hv htakes
  -- the thread `p` before, if it is of the group
  have hold (hlive : t'.live = true) (hg : t'.tgid = g) : Member s g p t :=
    ⟨ht, hc.live ▸ hlive, hc.tgid ▸ hg⟩
  -- a thread that owes and takes the signal before, other than `p`, does so after
  have hkeep {w x} (hw : Member s g w x) (hne : w ≠ p) (hx : sig ∈ x.owed)
      (hx' : takes x sig = true) :
      ∃ r' v', Member (s.put p t') g r' v' ∧ sig ∈ v'.owed ∧ takes v' sig = true :=
    ⟨w, x, member_put.2 (.inr ⟨hne, hw⟩), hx, hx'⟩
  obtain ⟨rfl, rfl, hlive, hg⟩ | ⟨hq, hmem⟩ := member_put.1 hu
  · -- `p` still owes the signal
    cases htakes' : takes u sig with
    | true => exact ⟨q, u, member_put.2 (.inl ⟨rfl, rfl, hlive, hg⟩), howed, htakes'⟩
    | false =>
      obtain ⟨rfl, rfl, -⟩ | ⟨hr, hv⟩ := member_put.1 hv
      · rw [htakes'] at htakes
        cases htakes
      have hbefore : takes t sig = false := by
        by_contra hb
        have halone := hc.shut sig howed (by simpa using hb) htakes'
        have hg' : t.tgid = g := hc.tgid ▸ hg
        rw [halone v (hg'.symm ▸ hv.mem_others hs hr)] at htakes
        cases htakes
      obtain ⟨w, x, hw, hx, hx'⟩ := h g sig q t (hold hlive hg) (hc.owed howed) r v hv htakes
      refine hkeep hw ?_ hx hx'
      rintro rfl
      obtain rfl : t = x := some_inj.1 (ht.symm.trans hw.thread)
      rw [hbefore] at hx'
      cases hx'
  · -- another thread owes it: `p` neither ceases to owe it nor begins to take it
    have hnot (hg : t'.tgid = g) : ¬ Sole s p t.tgid sig := fun hsole ↦
      hsole u ((hc.tgid ▸ hg : t.tgid = g).symm ▸ hmem.mem_others hs hq) howed
    obtain ⟨w, x, hw, hx, hx'⟩ : ∃ w x, Member s g w x ∧ sig ∈ x.owed ∧ takes x sig = true := by
      obtain ⟨rfl, rfl, hlive, hg⟩ | ⟨hr, hv⟩ := member_put.1 hv
      · refine h g sig q u hmem howed r t (hold hlive hg) ?_
        by_contra hb
        exact hnot hg (hc.opened sig htakes (by simpa using hb))
      · exact h g sig q u hmem howed r v hv htakes
    by_cases hwp : w = p
    · subst hwp
      obtain rfl : t = x := some_inj.1 (ht.symm.trans hw.thread)
      have hg : t'.tgid = g := hc.tgid.trans hw.tgid
      have hlive : t'.live = true := hc.live.trans hw.live
      have howed' : sig ∈ t'.owed := by
        by_contra hb
        exact hnot hg (hc.lost sig hx hb)
      cases htakes' : takes t' sig with
      | true => exact ⟨w, t', member_put.2 (.inl ⟨rfl, rfl, hlive, hg⟩), howed', htakes'⟩
      | false =>
        have halone := hc.shut sig howed' hx' htakes'
        obtain ⟨rfl, rfl, -⟩ | ⟨hr, hv⟩ := member_put.1 hv
        · rw [htakes'] at htakes
          cases htakes
        · rw [halone v (hw.tgid.symm ▸ hv.mem_others hs hr)] at htakes
          cases htakes
    · exact hkeep hw hwp hx hx'

theorem Change.trans (h : Change s p t t') (h' : Change s p t' u) : Change s p t u where
  tgid := h'.tgid.trans h.tgid
  live := h'.live.trans h.live
  owed := h'.owed.trans h.owed
  lost sig hsig hnot := by
    by_cases hmid : sig ∈ t'.owed
    · exact h.tgid ▸ h'.lost sig hmid hnot
    · exact h.lost sig hsig hmid
  opened sig hu ht := by
    cases hmid : takes t' sig with
    | true => exact h.opened sig hmid ht
    | false => exact h.tgid ▸ h'.opened sig hu hmid
  shut sig hsig ht hu := by
    cases hmid : takes t' sig with
    | true => exact h.tgid ▸ h'.shut sig hsig hmid hu
    | false => exact h.shut sig (h'.owed hsig) ht hmid

/-- A change that leaves the signals owed and the masks alone. -/
theorem Change.of_eq (htgid : t'.tgid = t.tgid) (hlive : t'.live = t.live) (howed : t'.owed = t.owed)
    (hblocked : t'.blocked = t.blocked) (hwaiting : t'.waiting = t.waiting) :
    Change s p t t' := by
  have htakes : takes t' = takes t := by
    funext sig
    rw [takes, takes, hblocked, hwaiting]
  refine ⟨htgid, hlive, howed.subset, fun sig hsig hnot ↦ ?_, fun sig hopen hshut ↦ ?_,
    fun sig _ hopen hshut ↦ ?_⟩
  · rw [howed] at hnot
    exact absurd hsig hnot
  · rw [htakes, hshut] at hopen
    cases hopen
  · rw [htakes, hopen] at hshut
    cases hshut

/-! ## Masks -/

/-- The mask of the thread may become `new`: what it unblocks no other thread owes, and what it owes
and blocks no other would take. -/
def MaskOk (s : St) (p : Pid) (t : Thread) (new : Sigset) : Prop :=
  (∀ sig ∈ t.blocked \ new, Sole s p t.tgid sig) ∧
    ∀ sig ∈ new \ t.blocked, sig ∈ t.owed → Alone s p t.tgid sig
  deriving Decidable

theorem takes_eq (hwait : t.waiting = none) : takes t sig = decide (sig ∉ t.blocked) := by
  simp [takes, hwait]

theorem Change.mask {new : Sigset} (hwait : t.waiting = none) (hok : MaskOk s p t new)
    (htgid : t'.tgid = t.tgid) (hlive : t'.live = t.live) (howed : t'.owed = t.owed)
    (hblocked : t'.blocked = new) (hwaiting : t'.waiting = none) : Change s p t t' := by
  refine ⟨htgid, hlive, howed.subset, fun sig hsig hnot ↦ ?_, fun sig hopen hshut ↦ ?_,
    fun sig hsig hopen hshut ↦ ?_⟩
  · rw [howed] at hnot
    exact absurd hsig hnot
  · rw [takes_eq hwaiting, hblocked, decide_eq_true_eq] at hopen
    rw [takes_eq hwait, decide_eq_false_iff_not, not_not] at hshut
    exact hok.1 sig (Finset.mem_sdiff.2 ⟨hshut, hopen⟩)
  · rw [takes_eq hwaiting, hblocked, decide_eq_false_iff_not, not_not] at hshut
    rw [takes_eq hwait, decide_eq_true_eq] at hopen
    exact hok.2 sig (Finset.mem_sdiff.2 ⟨hshut, hopen⟩) (howed ▸ hsig)

/-- The mask `sigprocmask` sets. -/
def maskAfter (how : Nat) (set blocked : Sigset) : Sigset :=
  match how with
  | 0 => blocked ∪ (set \ unblockable)
  | 1 => blocked \ set
  | 2 => set \ unblockable
  | _ => blocked

theorem sigprocmask_eq (how : Nat) :
    t.sigprocmask how set = { t with blocked := maskAfter how set t.blocked } :=
  match how with
  | 0 | 1 | 2 | _ + 3 => rfl

/-! ## Delivery -/

/-- The signal taken stays owed only if more of it is queued. -/
def Lingers (t : Thread) (sig : Sig) : Prop := isRt sig = true ∧ 2 ≤ (t.rtQueue sig).length
  deriving Decidable

/-- The mask that the signal's handler adds. -/
def handlerMask (actions : Sig → SigAction) (sig : Sig) : Sigset :=
  match verdict (actions sig) sig with
  | .handler mask => mask
  | _ => ∅

/-- A delivery to the thread may take any signal that is deliverable, and then block what the handler's
mask holds, or set the mask to restore. -/
def DeliverOk (s : St) (p : Pid) (t : Thread) (actions : Sig → SigAction) : Prop :=
  (∀ sig ∈ t.deliverable, sig ∈ t.owed → Sole s p t.tgid sig) ∧
  (∀ sig ∈ t.deliverable, ∀ k ∈ t.owed, k ∉ t.blocked → (k = sig → Lingers t sig) →
    k ∈ handlerMask actions sig → Alone s p t.tgid k) ∧
  ∀ mask ∈ t.restore, MaskOk s p t mask
  deriving Decidable

theorem begin_eq (t : Thread) (n : Nat) (chained : Bool) :
    ∃ b, t.begin n chained = { t with budget := b } := by
  rw [Thread.begin]
  split
  · exact ⟨_, rfl⟩
  · exact ⟨t.budget, rfl⟩

theorem MaskOk.of_took {new : Sigset} (h : MaskOk s p t new) (htgid : u.tgid = t.tgid)
    (hblocked : u.blocked = t.blocked) (howed : u.owed ⊆ t.owed) : MaskOk s p u new := by
  rw [MaskOk, htgid, hblocked]
  exact ⟨h.1, fun sig hsig hu ↦ h.2 sig hsig (howed hu)⟩

theorem Change.deliver (hwait : t.waiting = none) (hok : DeliverOk s p t actions)
    {r : Thread × Bool} (hr : t.deliver actions n chained faults = some r) : Change s p t r.1 := by
  obtain ⟨⟨u, taken⟩, hloop, rfl⟩ := map_eq_some_iff.1 hr
  rw [Thread.takeDeliverable] at hloop
  obtain ⟨b, hb⟩ := begin_eq { t with restore := none } n chained
  rw [hb] at hloop
  have htook := took_of_takeLoop hloop
  obtain ⟨hkeep, hend⟩ := takeLoop_spec hloop
  have huwait : u.waiting = none := htook.waiting.trans hwait
  -- the loop leaves the masks alone
  have hu : Change s p t u := by
    have htakes : takes u = takes t := by
      funext sig
      rw [takes, takes, htook.blocked, htook.waiting]
    refine ⟨htook.tgid, htook.live, htook.owed, fun sig hsig hnot ↦ ?_, fun sig hopen hshut ↦ ?_,
      fun sig _ hopen hshut ↦ ?_⟩
    · refine hok.1 sig ?_ hsig
      by_contra hdel
      exact hnot (hkeep sig hsig hdel)
    · rw [htakes, hshut] at hopen
      cases hopen
    · rw [htakes, hopen] at hshut
      cases hshut
  have hrestore {x : Thread} (htgid : x.tgid = u.tgid) (hlive : x.live = u.live)
      (howed : x.owed = u.owed) (hblocked : x.blocked = u.blocked) (hwaiting : x.waiting = none) :
      Change s p u (x.restoreMask t.restore) := by
    cases hmask : t.restore with
    | none => exact .of_eq htgid hlive howed hblocked (hwaiting.trans huwait.symm)
    | some mask =>
      have hok := (hok.2.2 mask hmask).of_took htook.tgid htook.blocked htook.owed
      exact .mask huwait hok htgid hlive howed rfl hwaiting
  refine hu.trans ?_
  cases taken with
  | none => exact hrestore rfl rfl rfl rfl huwait
  | some taken =>
    obtain ⟨sig, v⟩ := taken
    obtain ⟨hv, -, hmem, hlinger⟩ := hend sig v rfl
    cases v with
    | ignore => exact hrestore rfl rfl rfl rfl huwait
    | terminate | core => exact .of_eq rfl rfl rfl rfl rfl
    | stop => exact hrestore rfl rfl rfl rfl huwait
    | handler mask =>
      dsimp only [Thread.settle]
      split
      · exact .of_eq rfl rfl rfl rfl rfl
      · refine ⟨rfl, rfl, subset_rfl, fun k hk hnot ↦ absurd hk hnot, fun k hopen hshut ↦ ?_,
          fun k hk hopen hshut ↦ ?_⟩
        · simp [takes, Thread.enterHandler, huwait] at hopen hshut
          exact absurd hshut hopen.1
        · have hopen : k ∉ t.blocked := by
            rw [takes_eq huwait, decide_eq_true_eq, htook.blocked] at hopen
            exact hopen
          have hmask : k ∈ mask := by
            have hwait' : (u.enterHandler mask t.restore).waiting = none := huwait
            rw [takes_eq hwait', decide_eq_false_iff_not, not_not] at hshut
            obtain hk | hk := Finset.mem_union.1 hshut
            · rw [htook.blocked] at hk
              exact absurd hk hopen
            · exact hk
          rw [htook.tgid]
          refine hok.2.1 sig hmem k (htook.owed hk) hopen ?_ ?_
          · rintro rfl
            exact hlinger hk
          · rw [handlerMask, ← hv]
            exact hmask

/-! ## Waiting -/

/-- What `sigtimedwait` consumes no other thread owes.  A wait that ends with a signal leaves none
that another would take, and one that begins is for signals that no other thread owes. -/
def WaitOk (s : St) (p : Pid) (t : Thread) (set : Sigset) (late : Bool) : Prop :=
  match lowest (t.pending ∩ set) with
  | some sig => (sig ∈ t.owed → Sole s p t.tgid sig) ∧ (t.waiting ≠ none →
      ∀ k ∈ t.owed, k ∈ t.blocked → k ∈ set → (k = sig → Lingers t sig) → Alone s p t.tgid k)
  | none => late = false → t.waiting = none → ∀ k ∈ set, k ∈ t.blocked → Sole s p t.tgid k

instance : Decidable (WaitOk s p t set late) := by
  unfold WaitOk
  split <;> infer_instance

/-- The signals a thread is owed are pending. -/
structure Backed (t : Thread) : Prop where
  pending : t.owed ⊆ t.pending
  bound : ∀ sig ∈ t.pending, sig ≤ sigRtMax

theorem takes_iff : takes t sig = true ↔ sig ∉ t.blocked ∨ ∃ w ∈ t.waiting, sig ∈ w := by
  simp [takes, Option.any_eq_true]

theorem takes_eq_false : takes t sig = false ↔ sig ∈ t.blocked ∧ ∀ w ∈ t.waiting, sig ∉ w := by
  rw [← Bool.not_eq_true, takes_iff]
  simp

theorem Change.sigtimedwait (hback : Backed t) (hwait : t.waiting.all (· = set) = true)
    (hok : WaitOk s p t set late) {r : Thread × Option Sig}
    (hr : t.sigtimedwait set late = some r) : Change s p t r.1 := by
  have hset : ∀ w ∈ t.waiting, w = set := fun w hw ↦ by
    rw [hw] at hwait
    exact of_decide_eq_true hwait
  rw [Thread.sigtimedwait] at hr
  cases hlow : lowest (t.pending ∩ set) with
  | none =>
    rw [hlow] at hr
    cases hr
    rw [WaitOk, hlow] at hok
    cases late with
    | true =>
      refine ⟨rfl, rfl, subset_rfl, fun k hk hnot ↦ absurd hk hnot, fun k hopen hshut ↦ ?_,
        fun k hk hopen hshut ↦ ?_⟩
      · obtain hopen | ⟨w, ⟨⟩, -⟩ := takes_iff.1 hopen
        exact absurd (takes_eq_false.1 hshut).1 hopen
      · -- nothing of the set is pending, so nothing of it is owed
        obtain hopen | ⟨w, hw, hkw⟩ := takes_iff.1 hopen
        · exact absurd (takes_eq_false.1 hshut).1 hopen
        · have hpending := hback.pending hk
          have hmem : k ∈ t.pending ∩ set := Finset.mem_inter.2 ⟨hpending, hset w hw ▸ hkw⟩
          obtain ⟨j, -, hj⟩ := lowest_le hmem (hback.bound k hpending)
          rw [hlow] at hj
          cases hj
    | false =>
      refine ⟨rfl, rfl, subset_rfl, fun k hk hnot ↦ absurd hk hnot, fun k hopen hshut ↦ ?_,
        fun k hk hopen hshut ↦ ?_⟩
      · obtain ⟨hblocked, hnot⟩ := takes_eq_false.1 hshut
        obtain hopen | ⟨w, hw, hkw⟩ := takes_iff.1 hopen
        · exact absurd hblocked hopen
        · obtain rfl := some_inj.1 hw
          refine hok rfl ?_ k hkw hblocked
          by_contra hsome
          obtain ⟨w, hw⟩ := ne_none_iff_exists'.1 hsome
          exact hnot w hw (hset w hw ▸ hkw)
      · obtain ⟨hblocked, hnot⟩ := takes_eq_false.1 hshut
        obtain hopen | ⟨w, hw, hkw⟩ := takes_iff.1 hopen
        · exact absurd hblocked hopen
        · exact absurd (hset w hw ▸ hkw) (hnot set rfl)
  | some sig =>
    rw [hlow] at hr
    obtain ⟨⟨id, u⟩, hconsume, rfl⟩ := map_eq_some_iff.1 hr
    rw [WaitOk, hlow] at hok
    have htook := took_of_consume hconsume
    obtain ⟨hkeep, hlinger⟩ := owed_of_consume hconsume
    refine ⟨htook.tgid, htook.live, htook.owed, fun k hk hnot ↦ ?_, fun k hopen hshut ↦ ?_,
      fun k hk hopen hshut ↦ ?_⟩
    · obtain rfl : k = sig := by
        by_contra hne
        exact hnot (hkeep k hk hne)
      exact hok.1 hk
    · obtain hopen | ⟨w, ⟨⟩, -⟩ := takes_iff.1 hopen
      exact absurd (htook.blocked ▸ (takes_eq_false.1 hshut).1) hopen
    · have hblocked : k ∈ t.blocked := htook.blocked ▸ (takes_eq_false.1 hshut).1
      obtain hopen | ⟨w, hw, hkw⟩ := takes_iff.1 hopen
      · exact absurd hblocked hopen
      · refine hok.2 ?_ k (htook.owed hk) hblocked (hset w hw ▸ hkw) ?_
        · rw [hw]
          rintro ⟨⟩
        · rintro rfl
          exact hlinger hk

/-! ## What is owed is pending -/

theorem Backed.mark (h : Backed t) (hsig : sig ≤ sigRtMax) (howed : t'.owed ⊆ insert sig t.owed)
    (hpending : t'.pending = insert sig t.pending) : Backed t' := by
  refine ⟨fun k hk ↦ ?_, fun k hk ↦ ?_⟩
  · rw [hpending]
    exact Finset.insert_subset_insert sig h.pending (howed hk)
  · rw [hpending] at hk
    obtain rfl | hk := Finset.mem_insert.1 hk
    · exact hsig
    · exact h.bound k hk

theorem recordPending_fields (t : Thread) (sig : Sig) (n : Nat) :
    (t.recordPending sig n).pending = insert sig t.pending ∧
      (t.recordPending sig n).owed = t.owed := by
  rw [Thread.recordPending]
  split
  · split <;> exact ⟨rfl, rfl⟩
  · exact ⟨rfl, rfl⟩

theorem closed_backed : Closed fun _ t ↦ Backed t where
  later _ _ h := h
  sched _ _ _ _ _ h := ⟨h.pending, h.bound⟩
  child _ _ _ _ _ := ⟨subset_rfl, fun _ h ↦ absurd h (Finset.notMem_empty _)⟩
  record n t sig owed hsig h := by
    obtain ⟨hpending, howed⟩ := recordPending_fields t sig n
    refine h.mark (of_decide_eq_true (Bool.and_eq_true_iff.1 hsig).2) ?_ hpending
    rw [Thread.recorded, howed]
    split
    · exact subset_rfl
    · exact Finset.subset_insert ..
  timer n t sig hsig h := by
    have hmax : sig ≤ sigRtMax := of_decide_eq_true (Bool.and_eq_true_iff.1 hsig).2
    rw [Thread.timerExpires]
    split
    · split
      · exact h
      · exact h.mark hmax (Finset.subset_insert ..) rfl
    · exact h.mark hmax (Finset.subset_insert ..) rfl
  discard _ _ set _ h :=
    ⟨Finset.sdiff_subset_sdiff h.pending subset_rfl, fun k hk ↦ h.bound k (Finset.mem_sdiff.1 hk).1⟩

theorem Backed.consume (h : Backed t) (hconsume : t.consume sig = some (id, u)) : Backed u := by
  refine ⟨?_, fun k hk ↦ h.bound k ((took_of_consume hconsume).pending hk)⟩
  obtain ⟨-, -, rfl⟩ | ⟨-, rest, -, rfl⟩ := consume_cases hconsume
  · exact Finset.erase_subset_erase sig h.pending
  · dsimp only
    split
    · exact Finset.erase_subset_erase sig h.pending
    · exact h.pending

theorem restoreMask_fields {restore : Option Sigset} :
    (t.restoreMask restore).pending = t.pending ∧ (t.restoreMask restore).owed = t.owed := by
  cases restore <;> exact ⟨rfl, rfl⟩

theorem settle_fields {restore : Option Sigset} {taken : Option (Sig × Verdict)} :
    (t.settle restore faults taken).1.pending = t.pending ∧
      (t.settle restore faults taken).1.owed = t.owed := by
  rw [Thread.settle.eq_def]
  split
  · exact restoreMask_fields
  · exact restoreMask_fields
  · exact ⟨rfl, rfl⟩
  · exact ⟨rfl, rfl⟩
  · exact restoreMask_fields
  · split <;> exact ⟨rfl, rfl⟩

theorem Backed.deliver (h : Backed t) {r : Thread × Bool}
    (hr : t.deliver actions n chained faults = some r) : Backed r.1 := by
  obtain ⟨u, hloop, rfl⟩ := map_eq_some_iff.1 hr
  rw [Thread.takeDeliverable] at hloop
  obtain ⟨b, hb⟩ := begin_eq { t with restore := none } n chained
  rw [hb] at hloop
  have hstart : Backed { t with restore := none, budget := b } := ⟨h.pending, h.bound⟩
  have hu : Backed u.1 := by
    refine takeLoop_induct (fun _ hv ↦ ⟨hv.pending, hv.bound⟩)
      (fun v k v' hv hturn ↦ ?_) hstart hloop
    obtain ⟨id, w, hconsume, heq⟩ := consume_of_take hturn.2.2
    have hw := hv.consume hconsume
    rw [heq]
    exact ⟨hw.pending, hw.bound⟩
  obtain ⟨hpending, howed⟩ : (u.1.settle t.restore faults u.2).1.pending = u.1.pending ∧
      (u.1.settle t.restore faults u.2).1.owed = u.1.owed := settle_fields
  exact ⟨by rw [hpending, howed]; exact hu.pending, by rw [hpending]; exact hu.bound⟩

theorem Backed.own (h : Backed t) (hown : t.own actions n a = some t') : Backed t' := by
  cases a with
  | sigprocmask how set =>
    cases hown
    rw [sigprocmask_eq]
    exact ⟨h.pending, h.bound⟩
  | beginTemporary set =>
    cases hown
    exact ⟨h.pending, h.bound⟩
  | endTemporary =>
    cases hown
    rw [Thread.endTemporary]
    split
    · exact h
    · split <;> exact ⟨h.pending, h.bound⟩
  | sigtimedwait set late =>
    obtain ⟨r, hr, rfl⟩ := map_eq_some_iff.1 hown
    rw [Thread.sigtimedwait] at hr
    split at hr
    · cases hr
      split <;> exact ⟨h.pending, h.bound⟩
    · obtain ⟨⟨id, u⟩, hconsume, rfl⟩ := map_eq_some_iff.1 hr
      have hu := h.consume hconsume
      exact ⟨hu.pending, hu.bound⟩
  | returnToUser faults =>
    obtain ⟨r, hr, rfl⟩ := map_eq_some_iff.1 hown
    exact h.deliver hr
  | sigreturn faults =>
    obtain ⟨r, hr, rfl⟩ := map_eq_some_iff.1 hown
    have hpopped : Backed t.popped := ⟨h.pending, h.bound⟩
    exact hpopped.deliver (sigreturn_eq hr).2
  | sigaction | resume | send | clone | fork | exec | exit | exitGroup =>
    cases hown
    exact h

/-! ## Sending, ending and starting threads -/

theorem member_killGroup : Member (s.killGroup tgid) p q u ↔ p ≠ tgid ∧ Member s p q u := by
  constructor
  · rintro ⟨hthread, hlive, htgid⟩
    obtain ⟨v, hv, rfl⟩ := map_eq_some_iff.1 hthread
    by_cases hg : v.tgid = tgid
    · rw [if_pos hg] at hlive
      cases hlive
    · rw [if_neg hg] at hlive htgid ⊢
      exact ⟨htgid ▸ hg, hv, hlive, htgid⟩
  · rintro ⟨hne, hthread, hlive, htgid⟩
    refine ⟨?_, hlive, htgid⟩
    rw [St.killGroup]
    simp [hthread, htgid, hne]

theorem Kept.killGroup (h : Kept s) : Kept (s.killGroup tgid) := by
  intro g sig q u hu howed r v hv htakes
  obtain ⟨hne, hu⟩ := member_killGroup.1 hu
  obtain ⟨w, x, hw, hx⟩ := h g sig q u hu howed r v (member_killGroup.1 hv).2 htakes
  exact ⟨w, x, member_killGroup.2 ⟨hne, hw⟩, hx⟩

theorem Kept.of_threads (h : Kept s) (heq : s'.threads = s.threads) : Kept s' := by
  have hmem {g q u} : Member s' g q u ↔ Member s g q u := by
    constructor
    · rintro ⟨hthread, hlive, htgid⟩
      exact ⟨heq ▸ hthread, hlive, htgid⟩
    · rintro ⟨hthread, hlive, htgid⟩
      exact ⟨heq ▸ hthread, hlive, htgid⟩
  intro g sig q u hu howed r v hv htakes
  obtain ⟨w, x, hw, hx⟩ := h g sig q u (hmem.1 hu) howed r v (hmem.1 hv) htakes
  exact ⟨w, x, hmem.2 hw, hx⟩

/-- The thread ends.  If others of the group live on, it is owed nothing. -/
theorem Kept.exit (h : Kept s) (ht : s.threads p = some t)
    (howed : ∀ q u, q ≠ p → Member s t.tgid q u → t.owed = ∅) :
    Kept (s.put p { t with live := false }) := by
  intro g sig q u hu hsig r v hv htakes
  obtain ⟨-, rfl, hlive, -⟩ | ⟨hq, hmem⟩ := member_put.1 hu
  · cases hlive
  obtain ⟨-, rfl, hlive, -⟩ | ⟨hr, hmem'⟩ := member_put.1 hv
  · cases hlive
  obtain ⟨w, x, hw, hx, hx'⟩ := h g sig q u hmem hsig r v hmem' htakes
  refine ⟨w, x, member_put.2 (.inr ⟨?_, hw⟩), hx, hx'⟩
  rintro rfl
  obtain rfl : t = x := some_inj.1 (ht.symm.trans hw.thread)
  rw [howed q u hq (hw.tgid ▸ hmem)] at hx
  exact absurd hx (Finset.notMem_empty _)

/-- A new thread of a group, that takes no more than one that is there. -/
theorem Kept.clone (h : Kept s) (hs : Fresh s) (howed : t'.owed = ∅)
    (htakes : ∀ sig, takes t' sig = true → ∀ tgid, t'.tgid = tgid → tgid ≠ s.next →
      ∃ p t, Member s tgid p t ∧ takes t sig = true) : Kept (s.put s.next t') := by
  intro g sig q u hu hsig r v hv hv'
  obtain ⟨-, rfl, -⟩ | ⟨hq, hu⟩ := member_put.1 hu
  · rw [howed] at hsig
    exact absurd hsig (Finset.notMem_empty _)
  have hne : g ≠ s.next := by
    have hlt := (hs q u hu.thread).2
    rw [hu.tgid] at hlt
    exact hlt.ne
  obtain ⟨p, t, hp, ht⟩ : ∃ p t, Member s g p t ∧ takes t sig = true := by
    obtain ⟨-, rfl, -, hg⟩ | ⟨-, hv⟩ := member_put.1 hv
    · exact htakes sig hv' g hg hne
    · exact ⟨r, v, hv, hv'⟩
  obtain ⟨w, x, hw, hx⟩ := h g sig q u hu hsig p t hp ht
  exact ⟨w, x, member_put.2 (.inr ⟨(hs w x hw.thread).1.ne, hw⟩), hx⟩

theorem recorded_fields (u : Thread) (sig k : Sig) (n : Nat) (owed : Bool) :
    (u.recorded sig n owed).tgid = u.tgid ∧
    (u.recorded sig n owed).live = u.live ∧ takes (u.recorded sig n owed) k = takes u k ∧
      (u.recorded sig n owed).owed = if owed then insert sig u.owed else u.owed := by
  rw [Thread.recorded, Thread.recordPending]
  split
  · split <;> exact ⟨rfl, rfl, rfl, rfl⟩
  · exact ⟨rfl, rfl, rfl, rfl⟩

/-- A signal is recorded on a thread that would take it, if one of the group would. -/
theorem Kept.record (h : Kept s) (hq : s.threads q = some u)
    (hchosen : owed = true → ∀ r v, Member s u.tgid r v → takes v sig = true →
      u.live = true ∧ takes u sig = true) : Kept (s.record q sig owed) := by
  rw [St.record, hq]
  have hput : Kept (s.put q (u.recorded sig s.clock owed)) := by
    intro g k r w hw hk r' w' hw' htakes
    obtain ⟨htgid, hlive, hsame, howed⟩ := recorded_fields u sig k s.clock owed
    obtain ⟨r₁, v₁, hv₁, htakes₁⟩ : ∃ r₁ v₁, Member s g r₁ v₁ ∧ takes v₁ k = true := by
      obtain ⟨rfl, rfl, hl, hg⟩ | ⟨-, hmem⟩ := member_put.1 hw'
      · exact ⟨r', u, ⟨hq, hlive ▸ hl, htgid ▸ hg⟩, hsame ▸ htakes⟩
      · exact ⟨r', w', hmem, htakes⟩
    by_cases hnew : owed = true ∧ k = sig ∧ u.tgid = g
    · -- the new signal: the thread it is recorded on would take it
      obtain ⟨rfl, rfl, rfl⟩ := hnew
      obtain ⟨hl, htakes⟩ := hchosen rfl r₁ v₁ hv₁ htakes₁
      refine ⟨q, _, member_put.2 (.inl ⟨rfl, rfl, hlive.trans hl, htgid⟩), ?_, hsame.trans htakes⟩
      exact Finset.mem_insert_self ..
    · obtain ⟨r₂, v₂, hv₂, hk₂⟩ : ∃ r₂ v₂, Member s g r₂ v₂ ∧ k ∈ v₂.owed := by
        obtain ⟨rfl, rfl, hl, hg⟩ | ⟨-, hmem⟩ := member_put.1 hw
        · refine ⟨r, u, ⟨hq, hlive ▸ hl, htgid ▸ hg⟩, ?_⟩
          rw [howed] at hk
          split at hk
          · rename_i hsent
            obtain rfl | hk := Finset.mem_insert.1 hk
            · exact absurd ⟨hsent, rfl, htgid ▸ hg⟩ hnew
            · exact hk
          · exact hk
        · exact ⟨r, w, hmem, hk⟩
      obtain ⟨x, y, hx, hy, hy'⟩ := h g k r₂ v₂ hv₂ hk₂ r₁ v₁ hv₁ htakes₁
      by_cases hxq : x = q
      · subst hxq
        obtain rfl : u = y := some_inj.1 (hq.symm.trans hx.thread)
        refine ⟨x, _, member_put.2 (.inl ⟨rfl, rfl, hlive.trans hx.live, htgid.trans hx.tgid⟩), ?_,
          hsame.trans hy'⟩
        rw [howed]
        split
        · exact Finset.mem_insert_of_mem hy
        · exact hy
      · exact ⟨x, y, member_put.2 (.inr ⟨hxq, hx⟩), hy, hy'⟩
  exact hput.of_threads rfl

/-- A thread that waits for the signal is asleep. -/
def Asleep (s : St) (tgid : Pid) (sig : Sig) : Prop :=
  ∀ q ∈ s.threadsOf tgid, ∀ u ∈ s.threads q, u.waiting.any (sig ∈ ·) = true → u.asleep = true
  deriving Decidable

theorem mem_threadsOf (hs : Fresh s) : q ∈ s.threadsOf tgid ↔ ∃ u, Member s tgid q u := by
  rw [St.threadsOf, mem_filter, Option.any_eq_true]
  constructor
  · rintro ⟨-, u, hu, hmem⟩
    rw [Bool.and_eq_true, decide_eq_true_eq] at hmem
    exact ⟨u, hu, hmem.1, hmem.2⟩
  · rintro ⟨u, hu, hlive, htgid⟩
    exact ⟨mem_range.2 (hs q u hu).1, u, hu, by simp [hlive, htgid]⟩

/-- The choice of a recipient: if the threads that wait for the signal are asleep, and one of the
group would take it, the thread chosen does. -/
theorem recipient_takes (hs : Fresh s) (hu : s.threads (s.recipient tgid sig) = some u)
    (htgid : u.tgid = tgid) (hasleep : Asleep s tgid sig) (hv : Member s tgid r v)
    (htakes : takes v sig = true) : u.live = true ∧ takes u sig = true := by
  have hr : r ∈ s.threadsOf tgid := (mem_threadsOf hs).2 ⟨v, hv⟩
  rw [St.recipient] at hu
  split at hu
  · -- the process is named: who waits for the signal comes first
    cases hwaiting : (s.threadsOf tgid).find? fun q ↦ (s.threads q).any fun u ↦
        u.asleep && u.waiting.any (sig ∈ ·) with
    | some q =>
      rw [hwaiting] at hu
      have hu : s.threads q = some u := hu
      obtain ⟨u', hmem⟩ := (mem_threadsOf hs).1 (mem_of_find?_eq_some hwaiting)
      obtain rfl : u = u' := some_inj.1 (hu.symm.trans hmem.thread)
      have hpred := find?_some hwaiting
      rw [hu, any_some, Bool.and_eq_true] at hpred
      exact ⟨hmem.live, by simp [takes, hpred.2]⟩
    | none =>
      -- then who does not block it
      rw [hwaiting] at hu
      have hnot := find?_eq_none.1 hwaiting r hr
      have hblocked : sig ∉ v.blocked := by
        rw [hv.thread, any_some, Bool.and_eq_true] at hnot
        rw [takes, Bool.or_eq_true, decide_eq_true_eq] at htakes
        refine htakes.resolve_right fun hwait ↦ hnot ⟨hasleep r hr v hv.thread hwait, hwait⟩
      cases hunblocked : (s.threadsOf tgid).find? fun q ↦
          (s.threads q).any fun u ↦ sig ∉ u.blocked with
      | none =>
        have hnot := find?_eq_none.1 hunblocked r hr
        rw [hv.thread] at hnot
        exact absurd (decide_eq_true hblocked) hnot
      | some q =>
        rw [hunblocked] at hu
        have hu : s.threads q = some u := hu
        obtain ⟨u', hmem⟩ := (mem_threadsOf hs).1 (mem_of_find?_eq_some hunblocked)
        obtain rfl : u = u' := some_inj.1 (hu.symm.trans hmem.thread)
        have hpred := List.find?_some hunblocked
        rw [hu] at hpred
        exact ⟨hmem.live, by simp [takes, of_decide_eq_true hpred]⟩
  · rename_i hroute
    rw [hu] at hroute
    exact absurd (decide_eq_true htgid) hroute

/-- The threads that wait for the signal sent are asleep, and the signals that job control discards
are owed by no other thread. -/
def SendOk (s : St) (target : Pid) (sig : Sig) : Prop :=
  Asleep s target sig ∧ ∀ u ∈ s.threads (s.recipient target sig),
    (sig = sigCont → ∀ k ∈ ({sigStop, sigTstp} : Sigset),
      Sole s (s.recipient target sig) u.tgid k) ∧
    (defaultDisposition sig = .stop → Sole s (s.recipient target sig) u.tgid sigCont)
  deriving Decidable

theorem change_continued (hsole : ∀ k ∈ ({sigStop, sigTstp} : Sigset), Sole s p u.tgid k) :
    Change s p u (St.continued u) where
  tgid := rfl
  live := rfl
  owed := Finset.sdiff_subset
  lost k hk hnot := by
    refine hsole k ?_
    by_contra hset
    exact hnot (Finset.mem_sdiff.2 ⟨hk, hset⟩)
  opened k hopen hshut := by
    have hopen : takes u k = true := hopen
    rw [hopen] at hshut
    cases hshut
  shut k _ hopen hshut := by
    have hshut : takes u k = false := hshut
    rw [hopen] at hshut
    cases hshut

theorem change_halt (hsole : Sole s p u.tgid sigCont) : Change s p u u.halt where
  tgid := rfl
  live := rfl
  owed := Finset.erase_subset ..
  lost k hk hnot := by
    obtain rfl : k = sigCont := by
      by_contra hne
      exact hnot (Finset.mem_erase.2 ⟨hne, hk⟩)
    exact hsole
  opened k hopen hshut := by
    have hopen : takes u k = true := hopen
    rw [hopen] at hshut
    cases hshut
  shut k _ hopen hshut := by
    have hshut : takes u k = false := hshut
    rw [hopen] at hshut
    cases hshut

theorem put_put : (s.put p t).put p t' = s.put p t' := by
  simp [St.put]

theorem Kept.send {caller target : Pid} {queued : Bool} (h : Kept s) (hs : Fresh s)
    (hok : SendOk s target sig) : Kept (s.send caller target sig queued) := by
  obtain heq | ⟨u, hu, owed, howed, heq | ⟨v, hv, heq⟩⟩ := send_cases
  · rwa [heq]
  · rw [heq]
    refine h.record hu fun hsent r w hw htakes ↦ ?_
    rw [howed hsent] at hw
    exact recipient_takes hs hu (howed hsent) hok.1 hw htakes
  · obtain ⟨hcont, hstop⟩ := hok.2 u hu
    have hchange : Change s (s.recipient target sig) u v := by
      obtain rfl | ⟨hsig, rfl⟩ := hv
      · exact .of_eq rfl rfl rfl rfl rfl
      · exact change_continued (hcont hsig)
    have hput := h.put hs hu hchange
    have hvq : (s.put (s.recipient target sig) v).threads (s.recipient target sig) = some v := by
      simp [St.put]
    have hsame : ∀ k, takes v k = takes u k := by
      obtain rfl | ⟨-, rfl⟩ := hv
      · exact fun _ ↦ rfl
      · exact fun _ ↦ rfl
    obtain heq | heq | heq | ⟨hdisp, heq⟩ := heq
    · rwa [heq]
    · rw [heq]
      refine hput.record hvq fun hsent r w hw htakes ↦ ?_
      rw [hchange.live, hsame]
      obtain ⟨-, rfl, hl, -⟩ | ⟨-, hw⟩ := member_put.1 hw
      · exact ⟨hchange.live ▸ hl, hsame sig ▸ htakes⟩
      · rw [hchange.tgid, howed hsent] at hw
        exact recipient_takes hs hu (howed hsent) hok.1 hw htakes
    · rw [heq]
      exact hput.killGroup
    · rw [heq, put_put]
      refine h.put hs hu (hchange.trans (change_halt ?_))
      rw [hchange.tgid]
      exact hstop hdisp

/-! ## Runs -/

/-- A thread that exits is owed nothing unless it is the last of its group, a change of its mask is as
`MaskOk` says, a delivery, a wait and sending as `DeliverOk`, `WaitOk` and `SendOk` say. -/
def Proper (s : St) : Event → Prop
  | .act p (.sigprocmask how set) => ∀ t ∈ s.threads p, MaskOk s p t (maskAfter how set t.blocked)
  | .act p (.beginTemporary set) => ∀ t ∈ s.threads p, MaskOk s p t (set \ unblockable)
  | .act p .endTemporary => ∀ t ∈ s.threads p, t.interrupting (s.actions t.shared) = false →
    ∀ mask ∈ t.temporary, MaskOk s p t mask
  | .act p (.sigtimedwait set late) => ∀ t ∈ s.threads p, WaitOk s p t set late
  | .act p (.returnToUser _) => ∀ t ∈ s.threads p, DeliverOk s p t (s.actions t.shared)
  | .act p (.sigreturn _) => ∀ t ∈ s.threads p, ∀ mask ∈ t.stack.head?,
    MaskOk s p t mask ∧ DeliverOk s p t.popped (s.actions t.shared)
  | .act _ (.send target sig _) => SendOk s target sig
  | .act p .exit => ∀ t ∈ s.threads p, s.othersLive p t = true → t.owed = ∅
  | _ => True

instance : Decidable (Proper s e) := by
  apply @Event.casesOn (fun e ↦ Decidable (Proper s e)) e
  · intro p a
    apply @Act.casesOn (fun a ↦ Decidable (Proper s (.act p a))) a <;> intros <;> unfold Proper <;>
      infer_instance
  all_goals
    intros
    exact isTrue trivial

/-- A note of a thread's exit that says that signals of its process were lost. -/
def Losing : Note → Prop
  | .exited _ lost => lost ≠ ∅
  | _ => False

/-- No signal of a process is lost or stuck: no thread that exited took one with it, what is owed is
pending, and if a thread of the group would take it, it is where it can be taken. -/
structure Safe (s : St) : Prop where
  kept : Kept s
  backed : ∀ p t, s.threads p = some t → t.owed ⊆ t.pending
  log : ∀ n ∈ s.log, ¬ Losing n

/-- What a proper run keeps. -/
structure Inv (s : St) : Prop where
  kept : Kept s
  fresh : Fresh s
  backed : s.All fun _ t ↦ Backed t
  log : ∀ n ∈ s.log, ¬ Losing n

theorem Inv.safe (h : Inv s) : Safe s := ⟨h.kept, fun p t ht ↦ (h.backed p t ht).pending, h.log⟩

theorem Fresh.put (hs : Fresh s) (ht : s.threads p = some t) (htgid : t'.tgid = t.tgid) :
    Fresh (s.put p t') := by
  intro q u hu
  simp only [St.put, update_apply] at hu
  split at hu
  · rename_i hq
    cases hu
    rw [hq, htgid]
    exact hs p t ht
  · exact hs q u hu

theorem Fresh.killGroup (hs : Fresh s) : Fresh (s.killGroup tgid) := by
  intro q u hu
  obtain ⟨v, hv, rfl⟩ := map_eq_some_iff.1 hu
  have hlt := hs q v hv
  split <;> exact hlt

theorem Fresh.record (hs : Fresh s) : Fresh (s.record q sig owed) := by
  rw [St.record]
  split
  · exact hs
  · rename_i u hu
    exact hs.put hu (recorded_fields u sig sig s.clock owed).1

theorem Fresh.send {caller target : Pid} {queued : Bool} (hs : Fresh s) :
    Fresh (s.send caller target sig queued) := by
  obtain heq | ⟨u, hu, owed, -, heq | ⟨v, hv, heq⟩⟩ := send_cases
  · rwa [heq]
  · rw [heq]
    exact hs.record
  · have htgid : v.tgid = u.tgid := by
      obtain rfl | ⟨-, rfl⟩ := hv
      · rfl
      · rfl
    have hput : Fresh (s.put (s.recipient target sig) v) := hs.put hu htgid
    obtain heq | heq | heq | ⟨-, heq⟩ := heq
    · rwa [heq]
    · rw [heq]
      exact hput.record
    · rw [heq]
      exact hput.killGroup
    · rw [heq, put_put]
      exact hs.put hu htgid

/-- A new thread takes the next number. -/
theorem Fresh.next (hs : Fresh s) (t' : Thread) (htgid : t'.tgid ≤ s.next)
    (hthreads : s'.threads = (s.put s.next t').threads) (hnext : s'.next = s.next + 1) :
    Fresh s' := by
  intro q u hu
  rw [hthreads] at hu
  rw [hnext]
  simp only [St.put, update_apply] at hu
  split at hu
  · rename_i hq
    cases hu
    rw [hq]
    exact ⟨Nat.lt_succ_self _, Nat.lt_succ_of_le htgid⟩
  · obtain ⟨hp, hg⟩ := hs q u hu
    exact ⟨hp.trans (Nat.lt_succ_self _), hg.trans (Nat.lt_succ_self _)⟩

theorem Inv.change (h : Inv s) (ht : s.threads p = some t) (hc : Change s p t t') :
    Kept (s.put p t') ∧ Fresh (s.put p t') :=
  ⟨h.kept.put h.fresh ht hc, h.fresh.put ht hc.tgid⟩

theorem Inv.goBack (h : Inv s) (ht : s.threads p = some t) {r : Thread × Bool}
    (hc : Change s p t r.1) : Kept (s.goBack p t r) ∧ Fresh (s.goBack p t r) := by
  obtain ⟨hkept, hfresh⟩ := h.change ht hc
  rw [St.goBack]
  split
  · exact ⟨hkept.killGroup.of_threads rfl, hfresh.killGroup⟩
  · exact ⟨hkept.of_threads rfl, hfresh⟩

theorem takes_child {shared : Nat} (hwait : t.waiting = none) :
    takes (St.child t tgid shared) sig = takes t sig := by
  rw [takes_eq hwait]
  exact takes_eq rfl

theorem Inv.perform (h : Inv s) (ht : s.threads p = some t) (hlive : t.live = true)
    (hproper : Proper s (.act p a)) (hstep : perform s p t a = some s') : Kept s' ∧ Fresh s' := by
  obtain ⟨set, late, r, rfl, -, hwait, hr, rfl⟩ | ⟨rfl, hwait, rfl⟩ | ⟨hidle, hstep⟩ :=
    perform_cases hstep
  · obtain ⟨hkept, hfresh⟩ :=
      h.change ht (Change.sigtimedwait (h.backed p t ht) hwait (hproper t ht) hr)
    cases r.2 with
    | none => exact ⟨hkept, hfresh⟩
    | some sig => exact ⟨hkept.of_threads rfl, hfresh⟩
  · refine h.change ht ?_
    rw [Thread.endTemporary]
    split
    · exact .of_eq rfl rfl rfl rfl rfl
    · rename_i original horiginal
      split
      · exact .of_eq rfl rfl rfl rfl rfl
      · rename_i hint
        exact .mask hwait (hproper t ht (by simpa using hint) original horiginal) rfl rfl rfl rfl hwait
  · have hwait : t.waiting = none :=
      of_decide_eq_true (Bool.and_eq_true_iff.1 hidle).2
    cases a with
    | sigtimedwait | endTemporary => cases hstep
    | sigaction sig action =>
      cases hstep
      rw [St.sigaction]
      split
      · exact ⟨h.kept, h.fresh⟩
      · exact ⟨h.kept.of_threads rfl, h.fresh⟩
    | sigprocmask how set =>
      cases hstep
      rw [sigprocmask_eq]
      exact h.change ht (.mask hwait (hproper t ht) rfl rfl rfl rfl hwait)
    | beginTemporary set =>
      cases hstep
      exact h.change ht (.mask hwait (hproper t ht) rfl rfl rfl rfl hwait)
    | returnToUser faults =>
      obtain ⟨r, hr, rfl⟩ := map_eq_some_iff.1 hstep
      exact h.goBack ht (.deliver hwait (hproper t ht) hr)
    | sigreturn faults =>
      obtain ⟨r, hr, rfl⟩ := map_eq_some_iff.1 hstep
      obtain ⟨hstack, hr⟩ := sigreturn_eq hr
      obtain ⟨mask, rest, hcons⟩ := exists_cons_of_ne_nil hstack
      obtain ⟨hmask, hdeliver⟩ := hproper t ht mask (by rw [hcons]; rfl)
      have hpopped : Change s p t t.popped := by
        refine .mask hwait hmask rfl rfl rfl ?_ hwait
        rw [Thread.popped, hcons]
        rfl
      have hdelivered : Change s p t.popped r.1 := Change.deliver (t := t.popped) hwait hdeliver hr
      exact h.goBack ht (hpopped.trans hdelivered)
    | resume =>
      cases hstep
      exact h.goBack ht (.of_eq rfl rfl rfl rfl rfl)
    | send target sig queued =>
      cases (of_ite_right hstep (by simp)).2
      exact ⟨h.kept.send h.fresh hproper, h.fresh.send⟩
    | clone =>
      cases hstep
      have hkept : Kept (s.put s.next (St.child t t.tgid t.shared)) := by
        refine h.kept.clone h.fresh rfl fun sig htakes g hg _ ↦ ⟨p, t, ⟨ht, hlive, hg⟩, ?_⟩
        rwa [takes_child hwait] at htakes
      exact ⟨hkept.of_threads rfl, h.fresh.next (St.child t t.tgid t.shared) (h.fresh p t ht).2.le rfl rfl⟩
    | fork =>
      cases hstep
      have hkept : Kept (s.put s.next (St.child t s.next s.nextShared)) :=
        h.kept.clone h.fresh rfl fun sig _ g hg hne ↦ absurd hg.symm hne
      exact ⟨hkept.of_threads rfl, h.fresh.next (St.child t s.next s.nextShared) le_rfl rfl rfl⟩
    | exec =>
      cases hstep
      exact ⟨h.kept.of_threads rfl, h.fresh⟩
    | exit =>
      cases hstep
      have hkept : Kept (s.put p { t with live := false }) := by
        refine h.kept.exit ht fun q u hq hu ↦ hproper t ht ?_
        refine any_eq_true.2 ⟨q, mem_range.2 (h.fresh q u hu.thread).1, ?_⟩
        simp [hq, hu.thread, hu.live, hu.tgid]
      exact ⟨hkept.of_threads rfl, h.fresh.put ht rfl⟩
    | exitGroup =>
      cases hstep
      exact ⟨h.kept.killGroup, h.fresh.killGroup⟩

/-- **A proper step keeps the invariant.** -/
theorem step_inv (h : Inv s) (hstep : step s e = some s') (hproper : Proper s e) : Inv s' := by
  have hbacked : s'.All fun _ t ↦ Backed t :=
    step_all closed_backed h.backed (fun p t _ _ ht _ hown ↦ (h.backed p t ht).own hown) hstep
  have hlog : ∀ n ∈ s'.log, ¬ Losing n := by
    obtain hlog | ⟨p, t, set, late, r, sig, rfl, -, -, hlog⟩ | ⟨p, t, r, -, -, -, hlog⟩ |
      ⟨p, t, rfl, ht, hlog⟩ := step_log hstep
    · rw [hlog]
      exact h.log
    · rw [hlog, forall_mem_cons]
      exact ⟨id, h.log⟩
    · rw [hlog, forall_mem_cons]
      exact ⟨id, h.log⟩
    · rw [hlog, forall_mem_cons]
      refine ⟨fun hlost ↦ ?_, h.log⟩
      split at hlost
      · rename_i hothers
        exact hlost (hproper t ht hothers)
      · exact hlost rfl
  suffices hboth : Kept s' ∧ Fresh s' from ⟨hboth.1, hboth.2, hbacked, hlog⟩
  cases e with
  | act p a =>
    obtain ⟨t, ht, hrun, hstep⟩ := step_act hstep
    exact h.perform ht hrun.1 hproper hstep
  | post p sig =>
    cases (of_ite_right hstep (by simp)).2
    refine ⟨?_, h.fresh.record⟩
    cases hp : s.threads p with
    | none =>
      rw [St.record, hp]
      exact h.kept
    | some u => exact h.kept.record hp (by simp)
  | timer p sig =>
    obtain ⟨-, hstep⟩ := of_ite_right hstep (by simp)
    obtain ⟨t, ht, rfl⟩ := map_eq_some_iff.1 hstep
    have hc : Change s p t (t.timerExpires sig s.clock) := by
      rw [Thread.timerExpires]
      split
      · split
        · exact .of_eq rfl rfl rfl rfl rfl
        · exact .of_eq rfl rfl rfl rfl rfl
      · exact .of_eq rfl rfl rfl rfl rfl
    obtain ⟨hkept, hfresh⟩ := h.change ht hc
    exact ⟨hkept.of_threads rfl, hfresh⟩
  | sleep p =>
    obtain ⟨t, ht, hstep⟩ := bind_eq_some_iff.1 hstep
    cases (of_ite_left hstep (by simp)).2
    exact h.change ht (.of_eq rfl rfl rfl rfl rfl)
  | wake p =>
    obtain ⟨t, ht, rfl⟩ := map_eq_some_iff.1 hstep
    exact h.change ht (.of_eq rfl rfl rfl rfl rfl)

theorem boot_inv : Inv St.boot where
  kept := by
    intro g sig q u hu howed
    have hthread := hu.thread
    simp only [St.boot, update_apply] at hthread
    split at hthread
    · cases hthread
      exact absurd howed (Finset.notMem_empty _)
    · cases hthread
  fresh := by
    intro q u hu
    simp only [St.boot, update_apply] at hu
    split at hu
    · rename_i hq
      cases hu
      rw [hq]
      exact ⟨by decide, by decide⟩
    · cases hu
  backed := by
    intro q u hu
    simp only [St.boot, update_apply] at hu
    split at hu
    · cases hu
      exact ⟨subset_rfl, fun _ h ↦ absurd h (Finset.notMem_empty _)⟩
    · cases hu
  log := nofun

/-- **A signal sent to a process is not lost and not stuck in a proper run.** -/
theorem run_kept_signals (hC : Meets step Proper St.boot es) (hrun : run step St.boot es = some s) :
    Safe s :=
  (run_inv (fun _ _ _ hproper hs h ↦ step_inv hs h hproper) boot_inv hC hrun : Inv s).safe

/-- A process of two threads is sent a signal that neither blocks, and one of them handles it. -/
theorem run_kept_signals_handled : ∃ s, run step St.boot
      [.act 1 .fork, .act 2 (.sigaction 10 ⟨.caught, ∅, false, false, false⟩),
        .act 2 (.returnToUser false), .act 2 .clone, .act 2 (.returnToUser false),
        .act 1 (.send 2 10 false), .act 1 (.returnToUser false), .act 2 (.returnToUser false)] =
          some s ∧
    (s.threads 2).any (fun t ↦ t.taken.length = 1 && t.owed = ∅) = true ∧ Safe s :=
  exists_run_and (by decide +kernel) fun _ hrun ↦ run_kept_signals (by decide +kernel) hrun

/-- Both threads of a process block `SIGUSR1` when it is sent, so it is recorded on the second.  When
the first unblocks it, it is not there; when the second exits, it is lost. -/
theorem signal_stuck :
    (∃ s, run step St.boot
      [.act 1 .fork, .act 2 (.sigprocmask 0 {10}), .act 2 (.returnToUser false), .act 2 .clone,
        .act 2 (.returnToUser false), .act 1 (.send 2 10 false), .act 1 (.returnToUser false),
        .act 2 (.sigprocmask 1 {10}), .act 2 (.returnToUser false)] = some s ∧
      (s.threads 2).any (fun t ↦ t.live && takes t 10 && 10 ∉ t.pending) = true ∧
      (s.threads 3).any (fun t ↦ t.live && t.tgid = 2 && 10 ∈ t.owed) = true ∧
      ∀ q ∈ s.threadsOf 2, (s.threads q).all (fun t ↦ 10 ∉ t.owed || !takes t 10) = true) ∧
    ∃ s, run step St.boot
      [.act 1 .fork, .act 2 (.sigprocmask 0 {10}), .act 2 (.returnToUser false), .act 2 .clone,
        .act 2 (.returnToUser false), .act 1 (.send 2 10 false), .act 1 (.returnToUser false),
        .act 3 .exit] = some s ∧
      (s.threads 2).any (fun t ↦ t.live && 10 ∉ t.pending) = true ∧ .exited 3 {10} ∈ s.log :=
  ⟨exists_run _ (by decide +kernel), exists_run _ (by decide +kernel)⟩

end OxideBSD.Signals.Group
