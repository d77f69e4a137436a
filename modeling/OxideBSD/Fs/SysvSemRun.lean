import OxideBSD.Fs.SysvSem

/-!
# `semop` is atomic and strands nobody

Two facts about every run of the machine of `OxideBSD.Fs.SysvSem`.

* `enter_cases`: a turn of `semop` performs the whole array, goes to sleep or returns an error, and in
  the last two it changes no semaphore (`step_atomic`).
* A sleeper is keyed by one semaphore, that of the first operation that could not go on.  That is
  enough: the array is `Stuck` on that semaphore, so nothing the others do can enable it (`Reason`),
  and every change of that semaphore wakes the sleeper (`Changes`, `Inv.change`).
* `step_inv`, `run_semop_atomic`: so nobody sleeps whose array could be performed.
-/

set_option autoImplicit false

namespace OxideBSD.Sem

open Function Ipc List Option

/-! ## What a turn does -/

/-- The turn changed no semaphore and no undo list. -/
def Unchanged (s s' : St) : Prop := s'.sets = s.sets ∧ s'.undo = s.undo

/-- The turn performed the whole array on the set, and the call is over. -/
structure Performed (s s' : St) (pid : Pid) (c : Call) : Prop where
  set : ∃ old new, s.sets.objs c.semid = some old ∧
    s'.sets.objs = update s.sets.objs c.semid (some new) ∧
    Enabled c.ops old.val ∧ new.val = performAll c.ops old.val ∧
    new.semas.length = old.semas.length
  next : s'.sets.next = s.sets.next
  woken : s'.asleep = wakeBlockedSemop c.semid (touched c.ops) s.asleep
  ended : s'.calls = update s.calls pid none

/-- The turn went to sleep: the array is stuck on the semaphore it sleeps for. -/
structure Slept (s s' : St) (pid : Pid) (c : Call) : Prop where
  same : Unchanged s s'
  set : ∃ k old, s.sets.objs c.semid = some old ∧ k.semid = c.semid ∧
    s'.asleep = update s.asleep pid (some k) ∧ Stuck k.num c.ops (old.val k.num)
  goesOn : s'.calls = update s.calls pid (some c)

/-- The turn returned an error. -/
structure Refused (s s' : St) (pid : Pid) : Prop where
  same : Unchanged s s'
  asleep : s'.asleep = s.asleep
  ended : s'.calls = update s.calls pid none

theorem commit_getElem? (scratch : List Int) (caller : Pid) (ops : List Sembuf)
    (semas : List Semaphore) (i : Nat) (hi : i < semas.length) :
    (commit scratch caller ops semas)[i]? =
      if i ∈ ops.map Sembuf.semNum then some ⟨scratch.getD i 0, caller⟩ else semas[i]? := by
  induction ops generalizing semas with
  | nil => simp [commit]
  | cons op ops ih =>
    rw [commit, foldl_cons, ← commit, ih _ (by simpa using hi)]
    by_cases hop : i ∈ ops.map Sembuf.semNum
    · simp [hop]
    · by_cases heq : op.semNum = i
      · simp [heq, hi]
      · simp [heq, Ne.symm heq]

theorem commit_length (scratch : List Int) (caller : Pid) (ops : List Sembuf)
    (semas : List Semaphore) : (commit scratch caller ops semas).length = semas.length := by
  induction ops generalizing semas with
  | nil => rfl
  | cons op ops ih => rw [commit, foldl_cons, ← commit, ih, length_set]

theorem SemSet.val_eq (set : SemSet) (i : Nat) :
    set.val i = ((set.semas[i]?).map Semaphore.val).getD 0 := by
  rw [SemSet.val, getD_eq_getElem?_getD, getElem?_map]

/-- What `commit` makes of the set: the values after the array. -/
theorem commit_val {set new : SemSet} {scratch : List Int} {caller : Pid} {ops : List Sembuf}
    (hops : ∀ op ∈ ops, op.semNum < set.semas.length)
    (hscratch : (fun i ↦ scratch.getD i 0) = performAll ops set.val)
    (hnew : new.semas = commit scratch caller ops set.semas) :
    new.val = performAll ops set.val := by
  funext i
  rw [SemSet.val_eq, hnew]
  by_cases hi : i < set.semas.length
  · rw [commit_getElem? _ _ _ _ _ hi]
    by_cases hop : i ∈ ops.map Sembuf.semNum
    · simp only [hop]
      exact congrFun hscratch i
    · rw [if_neg hop, performAll_of_not_mem hop, SemSet.val_eq]
  · have hop : i ∉ ops.map Sembuf.semNum := by
      intro hmem
      obtain ⟨op, hop, rfl⟩ := mem_map.1 hmem
      exact hi (hops op hop)
    have hlen := commit_length scratch caller ops set.semas
    rw [performAll_of_not_mem hop, SemSet.val_eq, getElem?_eq_none (by omega),
      getElem?_eq_none (by omega)]

variable {s s' : St} {pid : Pid} {c : Call} {now : Int} {e : Event} {i : Nat}

/-- **What one turn of `semop` does**: it performs the array, goes to sleep or returns an error. -/
theorem enter_cases {ticks : Nat} (h : s.enter pid c ticks now = some s') :
    Performed s s' pid c ∨ Slept s s' pid c ∨ Refused s s' pid := by
  obtain ⟨⟨r, t⟩, hturn, rfl⟩ := map_eq_some_iff.1 h
  have herror : ∀ e, some (some (.error e), s) = some (r, t) →
      Refused s { t with
        calls := update t.calls pid (if r.isNone then some c else none) } pid := by
    rintro e he
    cases he
    exact ⟨⟨rfl, rfl⟩, rfl, rfl⟩
  unfold St.turn at hturn
  split at hturn
  · exact .inr (.inr (herror _ hturn))
  · rename_i set hset
    split at hturn
    · exact .inr (.inr (herror _ hturn))
    split at hturn
    · exact .inr (.inr (herror _ hturn))
    rename_i hnum
    have hops : ∀ op ∈ c.ops, op.semNum < set.semas.length := by
      simpa using hnum
    obtain ⟨sim, hsim, hturn⟩ := bind_eq_some_iff.1 hturn
    cases sim with
    | blocks op =>
      dsimp only at hturn
      split_ifs at hturn
      · exact .inr (.inr (herror _ hturn))
      · exact .inr (.inr (herror _ hturn))
      · cases hturn
        have hstuck := simulate_blocks (by simpa using hops) hsim
        exact .inr (.inl ⟨⟨rfl, rfl⟩, ⟨_, set, hset, rfl, rfl, hstuck⟩, rfl⟩)
    | applied scratch =>
      obtain ⟨undo, -, heq⟩ := map_eq_some_iff.1 hturn
      cases heq
      obtain ⟨hgo, hscratch⟩ := simulate_applied (by simpa using hops) hsim
      have hval : SemSet.val { set with semas := commit scratch pid c.ops set.semas } =
          performAll c.ops set.val := commit_val hops hscratch rfl
      exact .inl ⟨⟨set, _, hset, rfl, hgo, hval, commit_length ..⟩, rfl, rfl, rfl⟩

/-- A turn of a `semop` performs the whole array or changes nothing. -/
def Atomic (s : St) (e : Event) (s' : St) : Prop :=
  ∀ pid c, turnOf s e = some (pid, c) → Unchanged s s' ∨ Performed s s' pid c

/-- An event that runs a turn runs it. -/
theorem step_turn (hturn : turnOf s e = some (pid, c)) (h : s.step e = some s') :
    ∃ ticks now, s.enter pid c ticks now = some s' := by
  cases e with
  | semop pid' cred semid sops nsops ts ticks now =>
    rw [turnOf] at hturn
    rw [St.step] at h
    split_ifs at h
    split at hturn
    · rename_i call hcall
      cases hturn
      rw [hcall] at h
      exact ⟨ticks, now, h⟩
    · cases hturn
  | resume pid' ticks now =>
    rw [St.step] at h
    split_ifs at h
    obtain ⟨call, hcall, heq⟩ := map_eq_some_iff.1 hturn
    cases heq
    rw [hcall] at h
    exact ⟨ticks, now, h⟩
  | _ => cases hturn

theorem step_atomic (h : s.step e = some s') : Atomic s e s' := by
  intro pid c hturn
  obtain ⟨ticks, now, henter⟩ := step_turn hturn h
  rcases enter_cases henter with hdone | hslept | hrefused
  · exact .inr hdone
  · exact .inl hslept.same
  · exact .inl hrefused.same

/-! ## Who sleeps -/

/-- Why a call may sleep under a key: it is for that set, and while the set is there its array is stuck
on the semaphore of the key. -/
def Reason (t : Ids SemSet) (k : Key) (c : Call) : Prop :=
  k.semid < t.next ∧ c.semid = k.semid ∧
    ∀ set, t.objs k.semid = some set → Stuck k.num c.ops (set.val k.num)

structure Inv (s : St) : Prop where
  bounded : s.sets.Bounded
  lens : ∀ id set, s.sets.objs id = some set → set.semas.length ≤ maxSemsPerSet
  pending : Waiters.Pending s.asleep s.calls (Reason s.sets)

/-- No set appears, and the semaphores that `p` does not name keep their values. -/
structure Changes (p : Int → Nat → Prop) (t t' : Ids SemSet) : Prop where
  next : t'.next = t.next
  kept : ∀ id new, t'.objs id = some new → ∃ old, t.objs id = some old ∧
    new.semas.length = old.semas.length ∧ ∀ num, ¬ p id num → new.val num = old.val num

namespace Changes

variable {p q : Int → Nat → Prop} {t t' t'' : Ids SemSet}

theorem refl (t : Ids SemSet) : Changes p t t := ⟨rfl, fun _ new h ↦ ⟨new, h, rfl, fun _ _ ↦ rfl⟩⟩

theorem trans (h : Changes p t t') (h' : Changes q t' t'')
    (hp : ∀ id num, p id num → q id num) : Changes q t t'' := by
  refine ⟨h'.next.trans h.next, fun id new hnew ↦ ?_⟩
  obtain ⟨mid, hmid, hlen', hnew⟩ := h'.kept id new hnew
  obtain ⟨old, hold, hlen, hmid⟩ := h.kept id mid hmid
  refine ⟨old, hold, hlen'.trans hlen, fun num hnum ↦ ?_⟩
  rw [hnew num hnum, hmid num fun hp' ↦ hnum (hp id num hp')]

/-- One set changes. -/
theorem of_update {id : Int} {old new : SemSet} (hnext : t'.next = t.next)
    (hold : t.objs id = some old) (hobjs : t'.objs = update t.objs id (some new))
    (hlen : new.semas.length = old.semas.length)
    (hval : ∀ num, ¬ p id num → new.val num = old.val num) : Changes p t t' := by
  refine ⟨hnext, fun id' set hset ↦ ?_⟩
  rw [hobjs] at hset
  by_cases heq : id' = id
  · subst heq
    rw [update_self, some.injEq] at hset
    exact ⟨old, hold, hset ▸ hlen, hset ▸ hval⟩
  · rw [update_of_ne heq] at hset
    exact ⟨set, hset, rfl, fun _ _ ↦ rfl⟩

theorem remove (t : Ids SemSet) (id key : Int) : Changes p t (t.remove id key) := by
  refine ⟨rfl, fun id' set hset ↦ ?_⟩
  by_cases heq : id' = id
  · subst heq
    simp at hset
  · rw [Ids.remove_objs, update_of_ne heq] at hset
    exact ⟨set, hset, rfl, fun _ _ ↦ rfl⟩

theorem bounded (h : Changes p t t') (ht : t.Bounded) : t'.Bounded := by
  intro id new hnew
  obtain ⟨old, hold, -⟩ := h.kept id new hnew
  rw [h.next]
  exact ht id old hold

theorem lens (h : Changes p t t') {n : Nat}
    (ht : ∀ id set, t.objs id = some set → set.semas.length ≤ n) :
    ∀ id set, t'.objs id = some set → set.semas.length ≤ n := by
  intro id new hnew
  obtain ⟨old, hold, hlen, -⟩ := h.kept id new hnew
  rw [hlen]
  exact ht id old hold

/-- A reason that the change does not touch. -/
theorem reason {k : Key} {c : Call} (h : Changes p t t') (hk : ¬ p k.semid k.num)
    (hr : Reason t k c) : Reason t' k c := by
  obtain ⟨hlt, hid, hstuck⟩ := hr
  refine ⟨by rw [h.next]; exact hlt, hid, fun new hnew ↦ ?_⟩
  obtain ⟨old, hold, -, hval⟩ := h.kept _ _ hnew
  rw [hval _ hk]
  exact hstuck old hold

end Changes

/-- The values change, and everybody is woken whose semaphore did. -/
theorem Inv.change {p : Key → Bool} {q : Int → Nat → Prop} (hs : Inv s)
    (h : Changes q s.sets s'.sets) (hcalls : s'.calls = s.calls)
    (hasleep : s'.asleep = Waiters.wake p s.asleep) (hp : ∀ k, p k = false → ¬ q k.semid k.num) :
    Inv s' := by
  refine ⟨h.bounded hs.bounded, h.lens hs.lens, ?_⟩
  rw [hasleep, hcalls]
  exact hs.pending.wake fun k c hk ↦ h.reason (hp k hk)

/-- What a process is in changes while it is awake. -/
theorem Inv.setCall (hs : Inv s) (hawake : s.asleep pid = none) (c : Option Call) :
    Inv { s with calls := update s.calls pid c } :=
  ⟨hs.bounded, hs.lens, hs.pending.setCall hawake c⟩

theorem not_mem_touched {ops : List Sembuf} {num : Nat} (h : num ∉ touched ops)
    (v : Nat → Int) : performAll ops v num = v num := by
  have hzero : total ops num = 0 := by
    refine sum_eq_zero fun x hx ↦ ?_
    obtain ⟨op, hop, rfl⟩ := mem_map.1 hx
    obtain ⟨hop, hnum⟩ := mem_filter.1 hop
    by_contra hne
    refine h (mem_map.2 ⟨op, mem_filter.2 ⟨hop, decide_eq_true hne⟩, ?_⟩)
    exact of_decide_eq_true hnum
  rw [performAll_eq, hzero, add_zero]

theorem Performed.inv (h : Performed s s' pid c) (hs : Inv s) (hawake : s.asleep pid = none) :
    Inv s' := by
  obtain ⟨old, new, hold, hobjs, -, hval, hlen⟩ := h.set
  have hs₁ := hs.setCall hawake none
  refine Inv.change hs₁
    (Changes.of_update (p := fun id num ↦ id = c.semid ∧ num ∈ touched c.ops) h.next hold hobjs hlen ?_)
    h.ended h.woken ?_
  · intro num hnum
    rw [hval]
    exact not_mem_touched (fun hmem ↦ hnum ⟨rfl, hmem⟩) _
  · intro k hk hq
    simp [hq.1, hq.2] at hk

theorem Slept.inv (h : Slept s s' pid c) (hs : Inv s) (hawake : s.asleep pid = none) : Inv s' := by
  obtain ⟨k, old, hold, hid, hasleep, hstuck⟩ := h.set
  have hreason : Reason s.sets k c := by
    refine ⟨hid ▸ hs.bounded _ old hold, hid.symm, fun set hset ↦ ?_⟩
    rw [hid, hold, some.injEq] at hset
    exact hset ▸ hstuck
  have hpending := hs.pending.sleep hawake hreason
  rw [← hasleep, ← h.goesOn, ← h.same.1] at hpending
  exact ⟨by rw [h.same.1]; exact hs.bounded, by rw [h.same.1]; exact hs.lens, hpending⟩

theorem Refused.inv (h : Refused s s' pid) (hs : Inv s) (hawake : s.asleep pid = none) :
    Inv s' := by
  have hpending := hs.pending.setCall hawake none
  rw [← h.asleep, ← h.ended, ← h.same.1] at hpending
  exact ⟨by rw [h.same.1]; exact hs.bounded, by rw [h.same.1]; exact hs.lens, hpending⟩

theorem enter_inv {ticks : Nat} (hs : Inv s) (hawake : s.asleep pid = none)
    (h : s.enter pid c ticks now = some s') : Inv s' := by
  rcases enter_cases h with h | h | h
  · exact h.inv hs hawake
  · exact h.inv hs hawake
  · exact h.inv hs hawake

theorem SemSet.val_set (set : SemSet) {num : Nat} (sem : Semaphore) (h : i ≠ num) :
    (set.set num sem).val i = set.val i := by
  rw [SemSet.val_eq, SemSet.val_eq, SemSet.set, getElem?_set_ne (Ne.symm h)]

/-- The undo changes only the semaphores it says it touched. -/
theorem applyUndo_changes {us : List Undo} {sets sets' : Ids SemSet} {touched : List (Int × Nat)}
    (h : applyUndo us sets = some (sets', touched)) :
    Changes (fun id num ↦ (id, num) ∈ touched) sets sets' := by
  induction us generalizing sets touched with
  | nil =>
    cases h
    exact .refl _
  | cons u us ih =>
    unfold applyUndo at h
    split at h
    · exact ih h
    · rename_i set sem hsem
      obtain ⟨v, -, h⟩ := bind_eq_some_iff.1 h
      obtain ⟨⟨sets₁, touched₁⟩, hrest, heq⟩ := map_eq_some_iff.1 h
      cases heq
      obtain ⟨set', hset', hsem⟩ := bind_eq_some_iff.1 hsem
      obtain ⟨sem', -, heq⟩ := map_eq_some_iff.1 hsem
      cases heq
      have hone : Changes (fun id num ↦ (id, num) = (u.semid, u.num)) sets
          (sets.put u.semid (set.set u.num { sem with val := clampVal v })) := by
        refine .of_update rfl hset' rfl length_set fun num hnum ↦ SemSet.val_set _ _ ?_
        rintro rfl
        exact hnum rfl
      refine (hone.trans ((ih hrest).trans (.refl _) ?_) ?_)
      · exact fun id num hmem ↦ mem_cons_of_mem _ hmem
      · rintro id num heq
        rw [heq]
        exact mem_cons_self

theorem exit_inv (hs : Inv s) (h : s.exit pid = some s') : Inv s' := by
  obtain ⟨⟨sets, touched⟩, happly, rfl⟩ := map_eq_some_iff.1 h
  have hwoken : Inv { s with
      sets
      asleep := Waiters.wake (fun k ↦ touched.contains (k.semid, k.num)) s.asleep } := by
    refine hs.change (applyUndo_changes happly) rfl rfl fun k hk hmem ↦ ?_
    simp [hmem] at hk
  exact ⟨hwoken.bounded, hwoken.lens, hwoken.pending.leave pid⟩

theorem semget_inv {c : Cred} {key nsems : Int} {flag : Nat} {r : Except Errno Int}
    {sets : Ids SemSet} (hs : Inv s) (h : semget s.sets c key nsems flag now = some (r, sets)) :
    Inv { s with sets } := by
  have hgets := Ids.getOrCreate_gets h
  refine ⟨hgets.bounded hs.bounded, ?_, hs.pending.mono fun k c hr ↦ ?_⟩
  · cases hgets with
    | same => exact hs.lens
    | new _ hgood _ hobjs =>
      intro id set hset
      simp only [Bool.or_eq_false_iff, decide_eq_false_iff_not] at hgood
      rw [hobjs] at hset
      by_cases heq : id = s.sets.next
      · subst heq
        rw [update_self, some.injEq] at hset
        subst hset
        rw [length_replicate]
        omega
      · rw [update_of_ne heq] at hset
        exact hs.lens id set hset
  cases hgets with
  | same => exact hr
  | new _ _ hnext hobjs =>
    -- the sleepers' sets were there before the new one
    obtain ⟨hlt, hid, hstuck⟩ := hr
    refine ⟨by rw [hnext]; omega, hid, fun set hset ↦ hstuck set ?_⟩
    rw [hobjs, update_of_ne hlt.ne] at hset
    exact hset

/-- What a `semctl` that succeeds does: it changes some semaphores and wakes who sleeps for them. -/
def Wakes (s s' : St) : Prop :=
  ∃ (p : Key → Bool) (q : Int → Nat → Prop), Changes q s.sets s'.sets ∧ s'.calls = s.calls ∧
    s'.asleep = Waiters.wake p s.asleep ∧ ∀ k, p k = false → ¬ q k.semid k.num

theorem Wakes.refl (s : St) : Wakes s s :=
  ⟨fun _ ↦ false, fun _ _ ↦ False, .refl _, rfl, Waiters.wake_false.symm, fun _ _ h ↦ h⟩

theorem Wakes.inv (h : Wakes s s') (hs : Inv s) : Inv s' := by
  obtain ⟨p, q, hchanges, hcalls, hasleep, hp⟩ := h
  exact hs.change hchanges hcalls hasleep hp

/-- One set changes, and those who sleep for the semaphores of it that do are woken. -/
theorem Wakes.of_put {semid : Int} {old new : SemSet} {nums : List Nat}
    (hold : s.sets.objs semid = some old) (hlen : new.semas.length = old.semas.length)
    (hval : ∀ num, num ∉ nums → new.val num = old.val num) :
    Wakes s { s with
      sets := s.sets.put semid new
      asleep := wakeBlockedSemop semid nums s.asleep } := by
  refine ⟨_, fun id num ↦ id = semid ∧ num ∈ nums, .of_update rfl hold rfl hlen ?_, rfl, rfl, ?_⟩
  · exact fun num hnum ↦ hval num fun hmem ↦ hnum ⟨rfl, hmem⟩
  · intro k hk hq
    simp [hq.1, hq.2] at hk

theorem wakeBlockedSemop_nil (semid : Int) (w : Pid → Option Key) :
    wakeBlockedSemop semid [] w = w := by
  unfold wakeBlockedSemop
  simp

theorem readAll_cons {α : Type} {f : Nat → Except Errno α} {is : List Nat} {as : List α}
    (h : readAll f (i :: is) = .ok as) :
    ∃ a as', f i = .ok a ∧ readAll f is = .ok as' ∧ as = a :: as' := by
  unfold readAll at h
  split at h
  · cases h
  · rename_i a ha
    cases hrest : readAll f is with
    | error e =>
      rw [hrest] at h
      cases h
    | ok as' =>
      rw [hrest] at h
      cases h
      exact ⟨a, as', ha, rfl, rfl⟩

theorem readAll_length {α : Type} {f : Nat → Except Errno α} {is : List Nat} {as : List α}
    (h : readAll f is = .ok as) : as.length = is.length := by
  induction is generalizing as with
  | nil =>
    cases h
    rfl
  | cons i is ih =>
    obtain ⟨a, as', -, hrest, rfl⟩ := readAll_cons h
    rw [length_cons, length_cons, ih hrest]

theorem readVals_length {arg : Nat → Option Nat} {n : Nat} {vals : List Int}
    (h : readVals arg n = .ok vals) : vals.length = n :=
  (readAll_length h).trans length_range

theorem SemSet.val_of_length_le {set : SemSet} (h : set.semas.length ≤ i) : set.val i = 0 := by
  rw [SemSet.val_eq, getElem?_eq_none h]
  rfl

theorem semctl_wakes {c : Cred} {semid : Int} {cmd : Cmd} {r : Reply} (hs : Inv s)
    (h : s.semctl pid c semid cmd now = .ok (r, s')) : Wakes s s' := by
  unfold St.semctl at h
  split at h
  · cases h
  · cases h
  · split_ifs at h
    cases h
    exact .refl s
  · rename_i raw set hset
    split_ifs at h
    split at h
    · cases h
    · cases h
      rw [← wakeBlockedSemop_nil semid s.asleep]
      exact .of_put hset rfl fun _ _ ↦ rfl
  · rename_i set hset
    split_ifs at h
    cases h
    refine ⟨_, fun _ _ ↦ False, .remove _ _ _, rfl, rfl, fun _ _ h ↦ h⟩
  · split_ifs at h
    split at h <;> cases h
    exact .refl s
  · rename_i num arg set hset
    split_ifs at h with haccess hnum hrange
    cases h
    refine .of_put hset length_set fun num' hnum' ↦ ?_
    have hlen := hs.lens semid set hset
    have hsame : asU16 num = num := by
      unfold asU16
      unfold maxSemsPerSet at hlen
      omega
    rw [hsame, mem_singleton] at hnum'
    exact SemSet.val_set set _ hnum'
  · split_ifs at h
    cases h
    exact .refl s
  · rename_i arg set hset
    split_ifs at h
    cases hvals : readVals arg set.semas.length with
    | error e =>
      rw [hvals] at h
      cases h
    | ok vals =>
      rw [hvals] at h
      cases h
      have hlen := readVals_length hvals
      refine .of_put hset (by simpa using hlen) fun num hnum ↦ ?_
      rw [mem_range, not_lt] at hnum
      rw [SemSet.val_of_length_le hnum, SemSet.val_of_length_le]
      simpa [hlen] using hnum
  · split at h <;> cases h
    exact .refl s
  · split_ifs at h
    cases h
    exact .refl s
  · split_ifs at h
    cases h
    exact .refl s

theorem step_inv (hs : Inv s) (h : s.step e = some s') : Inv s' := by
  cases e with
  | semget c key nsems flag now =>
    obtain ⟨⟨r, sets⟩, hget, rfl⟩ := map_eq_some_iff.1 h
    exact semget_inv hs hget
  | semop pid c semid sops nsops ts ticks now =>
    rw [St.step] at h
    split_ifs at h with hawake
    obtain ⟨call, -, h⟩ := bind_eq_some_iff.1 h
    cases call with
    | error e =>
      cases h
      exact hs
    | ok call => exact enter_inv hs hawake.1 h
  | resume pid ticks now =>
    rw [St.step] at h
    split_ifs at h with hawake
    obtain ⟨call, -, h⟩ := bind_eq_some_iff.1 h
    exact enter_inv hs hawake h
  | semctl pid c semid cmd now =>
    rw [St.step] at h
    split_ifs at h
    split at h
    · cases h
      exact hs
    · rename_i r t hctl
      cases h
      exact (semctl_wakes hs hctl).inv hs
  | exit pid => exact exit_inv hs h
  | die pid =>
    cases h
    exact ⟨hs.bounded, hs.lens, hs.pending.leave pid⟩
  | rouse pid =>
    cases h
    exact ⟨hs.bounded, hs.lens, hs.pending.rouse pid⟩

theorem inv_init : Inv St.init :=
  ⟨Ids.bounded_empty, fun _ _ h ↦ (by cases h), fun _ _ h ↦ (by cases h)⟩

/-- Nobody sleeps in `semop` whose array could be performed: who sleeps for a set that is still there
is in a call for it, and one of the call's operations cannot go on. -/
def NoneStranded (s : St) : Prop :=
  ∀ pid k set, s.asleep pid = some k → s.sets.objs k.semid = some set →
    ∃ c, s.calls pid = some c ∧ c.semid = k.semid ∧ ¬ Enabled c.ops set.val

/-- **`semop` is atomic and strands nobody.** -/
theorem run_semop_atomic {es : List Event} {s : St} (hrun : Machine.run St.step St.init es = some s) :
    NoneStranded s ∧ ∀ e s', s.step e = some s' → Atomic s e s' := by
  have hs : Inv s := Machine.run_keeps (fun _ _ _ ↦ step_inv) inv_init hrun
  refine ⟨fun pid k set hk hset ↦ ?_, fun e s' h ↦ step_atomic h⟩
  obtain ⟨c, hc, -, hid, hstuck⟩ := hs.pending pid k hk
  exact ⟨c, hc, hid, (hstuck set hset).not_enabled⟩

/-- A process waits for a semaphore, and another raises it without waking anybody else. -/
def waiting : List Event :=
  [.semget ⟨0, 0⟩ 0 2 0o600 0,
   .semop 1 ⟨0, 0⟩ 1 (fun i ↦ [⟨0, 1, 0⟩, ⟨1, -1, 0⟩][i]?) 2 .forever 0 0,
   .semctl 2 ⟨0, 0⟩ 1 (.setVal 0 5) 0]

theorem run_semop_atomic_waiting : ∃ s, Machine.run St.step St.init waiting = some s ∧
    (s.asleep 1 = some ⟨1, 1, false, u64Max⟩ ∧ (s.sets.objs 1).map SemSet.semas =
      some [⟨5, 2⟩, ⟨0, 0⟩]) ∧
    (NoneStranded s ∧ ∀ e s', s.step e = some s' → Atomic s e s') :=
  Machine.exists_run_and (by decide +kernel) fun _ hrun ↦ run_semop_atomic hrun

end OxideBSD.Sem
