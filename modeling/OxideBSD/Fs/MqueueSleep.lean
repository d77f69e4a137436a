import OxideBSD.Fs.MqueueRun

/-!
# Who sleeps on a POSIX message queue

* `FullOrEmpty`: who sleeps in a send sleeps on a full queue, who sleeps in a receive on an empty one;
  `Present`: and on one that is still there.
* `FullOrEmpty` fails where a receive takes a message and then cannot copy it out: it returns before it
  wakes the senders (`faulted_not_fullOrEmpty`).  `Careful` excludes that.
* `Present` fails where the last descriptor of an unlinked queue is closed under a sleeper, which nobody
  will wake; `Held` excludes that.
* `step_awake`, `step_present`, `run_queues`: with that excluded, they hold of every run.
-/

set_option autoImplicit false

namespace OxideBSD.Mq

open Function Ipc Option Machine

/-- Who sleeps is in a send to a full queue or in a receive from an empty one. -/
def FullOrEmpty (s : St) : Prop :=
  ∀ pid k, s.asleep pid = some k → ∃ c, s.calls pid = some c ∧ c.Under k ∧
    ∀ q, s.queues k.mqId = some q → c.Waits q

/-- Who sleeps does so on a queue that is there. -/
def Present (s : St) : Prop :=
  ∀ pid k, s.asleep pid = some k → s.queues k.mqId ≠ none

/-- A message that is taken can be copied out, or nobody sleeps in a send to its queue. -/
def Careful (s : St) (e : Event) : Prop :=
  ∀ pid c env, turnOf s e = some (pid, .recv c, env) → env.copy = .done ∨
    ∀ pid' k, s.asleep pid' = some k → k.isSpace c.mqId = false

/-- The queue that goes in the step. -/
def removes (s : St) : Event → Option Nat
  | .mqClose fd => (s.ends fd).bind fun mqEnd ↦ (s.queues mqEnd.mqId).bind fun q ↦
      if q.openCount - 1 = 0 ∧ q.unlinked then some mqEnd.mqId else none
  | .mqUnlink (.ok name) => (s.names name).bind fun id ↦ (s.queues id).bind fun q ↦
      if q.openCount = 0 then some id else none
  | _ => none

/-- Nobody sleeps on a queue that goes. -/
def Held (s : St) (e : Event) : Prop :=
  ∀ id, removes s e = some id → ∀ pid k, s.asleep pid = some k → k.mqId ≠ id

/-! ## Who sleeps -/

/-- Why a call may sleep under a key. -/
def Reason (s : St) (k : Key) (c : Call) : Prop :=
  c.Under k ∧ k.mqId < s.next ∧ ∀ q, s.queues k.mqId = some q → c.Waits q

def Awake (s : St) : Prop := Waiters.Pending s.asleep s.calls (Reason s)

variable {s s' : St} {pid : Pid} {e : Event}

/-- A queue changes in a way that leaves the call waiting. -/
theorem Reason.update {k : Key} {c : Call} {id : Nat} {q q' : MessageQueue} (h : Reason s k c)
    (hq : s.queues id = some q) (hnext : s'.next = s.next)
    (hqueues : s'.queues = update s.queues id (some q'))
    (hwaits : k.mqId = id → c.Waits q → c.Waits q') : Reason s' k c := by
  obtain ⟨hunder, hlt, hw⟩ := h
  refine ⟨hunder, by rw [hnext]; exact hlt, fun q₁ hq₁ ↦ ?_⟩
  rw [hqueues] at hq₁
  by_cases heq : k.mqId = id
  · rw [heq, update_self, some.injEq] at hq₁
    exact hq₁ ▸ hwaits heq (hw q (heq ▸ hq))
  · rw [update_of_ne heq] at hq₁
    exact hw q₁ hq₁

theorem Pushed.awake {c : SendCall} (h : Pushed s s' pid c) (hs : Awake s)
    (hawake : s.asleep pid = none) : Awake s' := by
  obtain ⟨q, q', hq, hroom, hqueues, -, -⟩ := h.queue
  rw [Awake, h.woken, h.ended]
  refine (hs.setCall hawake none).wake fun k c' hk hr ↦
    hr.update hq h.next hqueues fun heq hw ↦ ?_
  -- the receivers of the queue are woken, and it had room, so no sender slept
  cases c' with
  | send c' =>
    have : q.maxMsg ≤ q.messages.length := hw
    omega
  | recv c' =>
    cases k with
    | space id deadline => exact hr.1.elim
    | data id deadline =>
      rw [Key.isData, show id = c.mqId from heq, BEq.rfl] at hk
      cases hk

theorem Taken.awake {c : RecvCall} {env : Env} (h : Taken s s' pid c env) (hs : Awake s)
    (hawake : s.asleep pid = none)
    (hcareful : env.copy = .done ∨
      ∀ pid' k, s.asleep pid' = some k → k.isSpace c.mqId = false) : Awake s' := by
  obtain ⟨q, q', m, hq, hqueues, -, hmessages⟩ := h.queue
  have hkeep : ∀ k c', k.isSpace c.mqId = false → Reason s k c' → Reason s' k c' := by
    intro k c' hk hr
    refine hr.update hq h.next hqueues fun heq hw ↦ ?_
    cases c' with
    | send c' =>
      cases k with
      | space id deadline =>
        rw [Key.isSpace, show id = c.mqId from heq, BEq.rfl] at hk
        cases hk
      | data id deadline => exact hr.1.elim
    | recv c' =>
      have : q.messages = [] := hw
      rw [this] at hmessages
      cases hmessages
  rw [Awake, h.woken, h.ended]
  split
  · exact (hs.setCall hawake none).wake hkeep
  · rename_i hfault
    have hnone := hcareful.resolve_left hfault
    refine Waiters.Justified.mono (hs.setCall hawake none) fun pid' k hk ↦ ?_
    rintro ⟨c', hc', hr⟩
    exact ⟨c', hc', hkeep k c' (hnone pid' k hk) hr⟩

theorem Turn.awake {env : Env} {c : Call} (h : Turn s s' pid env c) (hs : Awake s)
    (hbooks : Books s) (hawake : s.asleep pid = none)
    (hcareful : ∀ c', c = .recv c' → env.copy = .done ∨
      ∀ pid' k, s.asleep pid' = some k → k.isSpace c'.mqId = false) : Awake s' := by
  have hsame : ∀ {k c'}, Same s s' → Reason s k c' → Reason s' k c' := by
    intro k c' h hr
    rw [Reason, h.queues, h.next]
    exact hr
  cases h with
  | pushed c h => exact h.awake hs hawake
  | taken c h => exact h.awake hs hawake (hcareful c rfl)
  | slept c h =>
    obtain ⟨k, q, hunder, hq, hw, hasleep⟩ := h.queue
    rw [Awake, hasleep, h.goesOn]
    have hreason : Reason s k c := by
      refine ⟨hunder, hbooks.bounded _ q hq, fun q' hq' ↦ ?_⟩
      rw [hq, some.injEq] at hq'
      exact hq' ▸ hw
    exact (Waiters.Pending.sleep hs hawake hreason).mono fun _ _ ↦ hsame h.same
  | refused c h =>
    rw [Awake, h.asleep, h.ended]
    exact (hs.setCall hawake none).mono fun _ _ ↦ hsame h.same

theorem Quiet.awake (h : Quiet s s') (hs : Awake s) : Awake s' := by
  cases h with
  | keeps h =>
    rw [Awake, h.asleep, h.calls]
    refine Waiters.Pending.mono hs fun k c hr ↦ ?_
    obtain ⟨hunder, hlt, hw⟩ := hr
    refine ⟨hunder, Nat.lt_of_lt_of_le hlt h.next, fun q' hq' ↦ ?_⟩
    rcases h.queues _ q' hq' with ⟨q, hq, hmessages, hmax⟩ | ⟨heq, -⟩
    · have := hw q hq
      cases c with
      | send c =>
        change q'.maxMsg ≤ q'.messages.length
        rw [hmessages, hmax]
        exact this
      | recv c => exact hmessages.trans this
    · omega
  | leave pid h =>
    subst h
    exact Waiters.Pending.leave hs pid
  | rouse pid h =>
    subst h
    exact Waiters.Pending.rouse hs pid

theorem step_awake (hcareful : Careful s e) (hs : Books s ∧ Awake s) (h : s.step e = some s') :
    Books s' ∧ Awake s' := by
  refine ⟨step_books hs.1 h, ?_⟩
  cases hturn : turnOf s e with
  | some pce =>
    obtain ⟨pid, c, env⟩ := pce
    obtain ⟨hawake, hdone⟩ := step_turn hturn h
    exact hdone.awake hs.2 hs.1 hawake fun c' hc ↦ hcareful pid c' env (hc ▸ hturn)
  | none => exact (step_quiet hturn h).awake hs.2

/-! ## Queues that go -/

/-- Every queue that was there still is. -/
def Stays (s s' : St) : Prop := ∀ id, s.queues id ≠ none → s'.queues id ≠ none

namespace Stays

variable {s s' s'' : St}

theorem of_eq (h : s'.queues = s.queues) : Stays s s' := fun id hid ↦ by rwa [h]

theorem of_update {mqId : Nat} {q : MessageQueue}
    (h : s'.queues = update s.queues mqId (some q)) : Stays s s' := by
  intro id hid
  rw [h]
  by_cases heq : id = mqId
  · subst heq
    simp
  · rwa [update_of_ne heq]

theorem put (s : St) (mqId : Nat) (q : MessageQueue) : Stays s (s.put mqId q) := of_update rfl

theorem trans (h : Stays s s') (h' : Stays s' s'') : Stays s s'' := fun id hid ↦ h' id (h id hid)

end Stays

theorem lookup_stays {name : List UInt8} {flags : Nat} {attr : Option (Option (Int × Int))}
    {id : Nat} (h : s.lookup name flags attr = .ok (id, s')) : Stays s s' := by
  unfold St.lookup at h
  split at h
  · split_ifs at h
    cases h
    exact .of_eq rfl
  · split_ifs at h
    split at h
    · cases h
    · split_ifs at h
      cases h
      exact .of_update rfl

theorem mqOpen_stays (s : St) (name : Except Errno (List UInt8)) (flags : Nat)
    (attr : Option (Option (Int × Int))) (room : Except Errno Unit) (fd : Nat) :
    Stays s (s.mqOpen name flags attr room fd) := by
  unfold St.mqOpen
  split
  · split
    · exact .of_eq rfl
    · split
      · exact .of_eq rfl
      · rename_i hlookup
        have hstays := lookup_stays hlookup
        split
        · exact hstays.trans (.of_update rfl)
        · exact hstays
  · exact .of_eq rfl

theorem mqNotify_stays (s : St) (pid : Pid) (realFd : Option Nat) (sev : Option Sigevent) :
    Stays s (s.mqNotify pid realFd sev) := by
  unfold St.mqNotify
  split
  · exact .of_eq rfl
  · split
    · exact .put s _ _
    · split
      · exact .of_eq rfl
      · split
        · exact .of_eq rfl
        · exact .of_eq rfl
        · exact .put s _ _
        · split
          · exact .of_eq rfl
          · exact .put s _ _

/-- `mq_close` removes the queue that `removes` says, or none. -/
theorem mqClose_stays (s : St) (fd : Nat) :
    Stays s (s.mqClose fd) ∨
      ∃ id, removes s (.mqClose fd) = some id ∧ ∀ id', id' ≠ id →
        (s.mqClose fd).queues id' = s.queues id' := by
  unfold St.mqClose
  split
  · exact .inl (.of_eq rfl)
  · rename_i mqEnd hend
    dsimp only
    split
    · exact .inl (.of_eq rfl)
    · rename_i q hq
      split
      · rename_i hlast
        rw [(forget_eq q fd).2.2] at hlast
        refine .inr ⟨mqEnd.mqId, ?_, fun id hne ↦ ?_⟩
        · rw [removes, hend, bind_some, hq, bind_some, if_pos hlast]
        · rw [remove_queues, update_of_ne hne]
      · exact .inl (.of_update rfl)

theorem mqUnlink_stays (s : St) (name : Except Errno (List UInt8)) :
    Stays s (s.mqUnlink name) ∨
      ∃ id, removes s (.mqUnlink name) = some id ∧ ∀ id', id' ≠ id →
        (s.mqUnlink name).queues id' = s.queues id' := by
  unfold St.mqUnlink
  split
  · exact .inl (.of_eq rfl)
  · rename_i name
    split
    · exact .inl (.of_eq rfl)
    · rename_i id hname
      dsimp only
      split
      · exact .inl (.of_eq rfl)
      · rename_i q hq
        split
        · rename_i hlast
          refine .inr ⟨id, ?_, fun id' hne ↦ ?_⟩
          · rw [removes, hname, bind_some, hq, bind_some, if_pos hlast]
          · rw [remove_queues, update_of_ne hne]
        · exact .inl (.of_update rfl)

/-- A step removes the queue that `removes` says, or none. -/
theorem step_stays (h : s.step e = some s') :
    Stays s s' ∨ ∃ id, removes s e = some id ∧ ∀ id', id' ≠ id → s'.queues id' = s.queues id' := by
  cases hturn : turnOf s e with
  | some pce =>
    obtain ⟨pid, c, env⟩ := pce
    left
    cases (step_turn hturn h).2 with
    | pushed c h =>
      obtain ⟨q, q', -, -, hqueues, -⟩ := h.queue
      exact .of_update hqueues
    | taken c h =>
      obtain ⟨q, q', m, -, hqueues, -⟩ := h.queue
      exact .of_update hqueues
    | slept c h => exact .of_eq h.same.queues
    | refused c h => exact .of_eq h.same.queues
  | none =>
    cases e with
    | mqOpen name flags attr room fd =>
      rw [St.step] at h
      split_ifs at h
      cases h
      exact .inl (mqOpen_stays s name flags attr room fd)
    | mqClose fd =>
      cases h
      exact mqClose_stays s fd
    | mqUnlink name =>
      cases h
      exact mqUnlink_stays s name
    | mqNotify pid realFd sev =>
      rw [St.step] at h
      split_ifs at h
      cases h
      exact .inl (mqNotify_stays s pid realFd sev)
    | mqTimedsend pid realFd len prio deadline text env =>
      rw [turnOf] at hturn
      rw [St.step] at h
      split_ifs at h
      split at hturn
      · cases hturn
      · rename_i e he
        rw [he] at h
        cases h
        exact .inl (.of_eq rfl)
    | mqTimedreceive pid realFd len env =>
      rw [turnOf] at hturn
      rw [St.step] at h
      split_ifs at h
      split at hturn
      · cases hturn
      · rename_i e he
        rw [he] at h
        cases h
        exact .inl (.of_eq rfl)
    | resume pid env =>
      rw [St.step] at h
      split_ifs at h
      obtain ⟨c, hc, -⟩ := map_eq_some_iff.1 h
      rw [turnOf, hc] at hturn
      cases hturn
    | spawn pid =>
      cases h
      exact .inl (.of_eq rfl)
    | leave pid =>
      cases h
      exact .inl (.of_eq rfl)
    | rouse pid =>
      cases h
      exact .inl (.of_eq rfl)

/-- Who sleeps after a step slept before it under the same key, or went to sleep on a queue that is
there. -/
theorem step_asleep (h : s.step e = some s') {k : Key} (hk : s'.asleep pid = some k) :
    s.asleep pid = some k ∨ s'.queues k.mqId ≠ none := by
  have hgone : ∀ pid', update s.asleep pid' none pid = some k → s.asleep pid = some k := by
    intro pid' hk
    by_cases heq : pid = pid'
    · subst heq
      rw [update_self] at hk
      cases hk
    · rwa [update_of_ne heq] at hk
  cases hturn : turnOf s e with
  | some pce =>
    obtain ⟨pid', c, env⟩ := pce
    cases (step_turn hturn h).2 with
    | pushed c h =>
      rw [h.woken] at hk
      exact .inl (Waiters.wake_eq_some.1 hk).1
    | taken c h =>
      rw [h.woken] at hk
      split at hk
      · exact .inl (Waiters.wake_eq_some.1 hk).1
      · exact .inl hk
    | slept c h =>
      obtain ⟨k', q, -, hq, -, hasleep⟩ := h.queue
      rw [hasleep] at hk
      by_cases heq : pid = pid'
      · subst heq
        rw [update_self, some.injEq] at hk
        subst hk
        right
        rw [h.same.queues, hq]
        exact some_ne_none q
      · rw [update_of_ne heq] at hk
        exact .inl hk
    | refused c h =>
      rw [h.asleep] at hk
      exact .inl hk
  | none =>
    left
    cases step_quiet hturn h with
    | keeps h =>
      rw [h.asleep] at hk
      exact hk
    | leave pid' h =>
      subst h
      exact hgone pid' hk
    | rouse pid' h =>
      subst h
      exact hgone pid' hk

theorem step_present (hheld : Held s e) (hs : Present s) (h : s.step e = some s') : Present s' := by
  intro pid k hk
  rcases step_asleep h hk with hold | hthere
  · rcases step_stays h with hstays | ⟨id, hremoves, hother⟩
    · exact hstays _ (hs pid k hold)
    · rw [hother _ (hheld id hremoves pid k hold)]
      exact hs pid k hold
  · exact hthere

/-- **Message queues** are in order and within their limits, receives take the first, and who sleeps
sleeps on a full queue or an empty one, in every run in which no receive fails to copy out under the
eyes of a sleeping sender; and no sleeper's queue is gone if none goes under one. -/
theorem run_queues {es : List Event} {s : St} (hcareful : Machine.Meets St.step Careful St.init es)
    (hrun : Machine.run St.step St.init es = some s) :
    Ordered s ∧ FullOrEmpty s ∧ (Machine.Meets St.step Held St.init es → Present s) ∧
      ∀ e s', s.step e = some s' → TakesFirst s e s' := by
  have hs : Books s ∧ Awake s := run_inv (I := fun s ↦ Books s ∧ Awake s)
    (fun _ _ _ ↦ step_awake) ⟨books_init, fun _ _ h ↦ (by cases h)⟩ hcareful hrun
  refine ⟨hs.1.ordered, fun pid k hk ↦ ?_, fun hheld ↦ ?_, fun e s' ↦ step_takesFirst hs.1.bounded⟩
  · obtain ⟨c, hc, hunder, -, hw⟩ := hs.2 pid k hk
    exact ⟨c, hc, hunder, hw⟩
  · exact run_inv (fun _ _ _ ↦ step_present) (fun _ _ h ↦ (by cases h))
      hheld hrun

/-! ## Runs -/

/-- A turn that finds nothing special. -/
def Env.plain : Env := ⟨false, false, 0, .ok 1000, .done⟩

/-- Two messages, a sender that has to wait at the limit of two, and a receive. -/
def limited : List Event :=
  [.spawn 1, .spawn 2, .mqOpen (.ok [113]) 0o102 (some (some (2, 8))) (.ok ()) 7,
   .mqTimedsend 1 (some 7) 1 3 (.ok 1000) (some fun _ ↦ 1) .plain,
   .mqTimedsend 1 (some 7) 1 5 (.ok 1000) (some fun _ ↦ 2) .plain,
   .mqTimedsend 2 (some 7) 1 3 (.ok 1000) (some fun _ ↦ 3) .plain]

theorem run_queues_limited : ∃ s, Machine.run St.step St.init limited = some s ∧
    (s.asleep 2 = some (.space 1 1000) ∧
      (s.queues 1).map MessageQueue.messages = some [⟨5, [2], 1⟩, ⟨3, [1], 0⟩]) ∧
    (Ordered s ∧ FullOrEmpty s ∧ Present s ∧ ∀ e s', s.step e = some s' → TakesFirst s e s') := by
  refine exists_run_of (fun s ↦ s.asleep 2 = some (.space 1 1000) ∧
    (s.queues 1).map MessageQueue.messages = some [⟨5, [2], 1⟩, ⟨3, [1], 0⟩]) (by decide +kernel)
    fun s hrun hs ↦ ?_
  have hcopies : Meets St.step (fun s e ↦ ∀ pce ∈ turnOf s e, pce.2.2.copy = .done)
      St.init limited := by decide +kernel
  have hcareful : Meets St.step Careful St.init limited :=
    hcopies.mono fun _ _ h pid c env hturn ↦ .inl (h (pid, .recv c, env) hturn)
  have hnone : Meets St.step (fun s e ↦ removes s e = none) St.init limited := by
    decide +kernel
  have hheld : Meets St.step Held St.init limited :=
    hnone.mono fun _ _ h id hid ↦ by rw [h] at hid; cases hid
  obtain ⟨hordered, hfull, hpresent, htakes⟩ := run_queues hcareful hrun
  exact ⟨hs, hordered, hfull, hpresent hheld, htakes⟩

/-- A sender waits at the limit of one, and a receive takes the message but cannot copy it out. -/
def faulted : List Event :=
  [.spawn 1, .spawn 2, .mqOpen (.ok [113]) 0o102 (some (some (1, 8))) (.ok ()) 7,
   .mqTimedsend 1 (some 7) 1 3 (.ok 1000) (some fun _ ↦ 1) .plain,
   .mqTimedsend 2 (some 7) 1 3 (.ok 1000) (some fun _ ↦ 2) .plain,
   .mqTimedreceive 1 (some 7) 8 { Env.plain with copy := .dataFault }]

/-- A receiver waits on an unlinked queue, and its last descriptor is closed. -/
def orphaned : List Event :=
  [.spawn 1, .mqOpen (.ok [113]) 0o102 none (.ok ()) 7, .mqUnlink (.ok [113]),
   .mqTimedreceive 1 (some 7) 8192 .plain, .mqClose 7]

/-- The sender sleeps on with the queue empty; and the receiver sleeps on with the queue gone. -/
theorem faulted_not_fullOrEmpty :
    (∃ s, Machine.run St.step St.init faulted = some s ∧ ¬ FullOrEmpty s) ∧
    ∃ s, Machine.run St.step St.init orphaned = some s ∧ ¬ Present s := by
  constructor
  · refine exists_run_of (fun s ↦ s.asleep 2 = some (.space 1 1000) ∧
      s.calls 2 = some (.send ⟨1, 3, [2], 1000⟩) ∧
      (s.queues 1).map (fun q ↦ (q.maxMsg, q.messages)) = some (1, [])) (by decide +kernel)
      fun s _ ⟨hasleep, hcall, hqueue⟩ h ↦ ?_
    obtain ⟨c, hc, -, hw⟩ := h 2 _ hasleep
    rw [hcall, some.injEq] at hc
    subst hc
    obtain ⟨q, hq, heq⟩ := map_eq_some_iff.1 hqueue
    obtain ⟨hmax, hmessages⟩ := Prod.mk.injEq .. ▸ heq
    have hfull : q.maxMsg ≤ q.messages.length := hw q hq
    rw [hmax, hmessages] at hfull
    revert hfull
    decide
  · exact exists_run_of (fun s ↦ s.asleep 1 = some (.data 1 1000) ∧ s.queues 1 = none)
      (by decide +kernel) fun _ _ ⟨hasleep, hgone⟩ h ↦ h 1 _ hasleep hgone

end OxideBSD.Mq
