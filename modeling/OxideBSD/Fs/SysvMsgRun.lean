import OxideBSD.Fs.SysvMsg

/-!
# What message queues keep

Facts about every run of the machine of `OxideBSD.Fs.SysvMsg`.

* `Tallied`: a message is taken from a queue at most once and only if it was put there; what was put
  and not taken is what the queue holds, and the queue's bytes are those of the messages it holds.
* `ByRule`: a step takes a message by the rule of `Chosen` or takes none.
* `NoneStranded`: who sleeps in `msgsnd` has a message that does not fit, who sleeps in `msgrcv` wants
  none of the messages there are.

The first two hold of every run.  The last fails where `IPC_SET` raises the limit of a queue: it wakes
nobody (`raised_not_noneStranded`).  `Steady` excludes that, and `run_steady` is the whole.
-/

set_option autoImplicit false

namespace OxideBSD.Msg

open Function Ipc List Option

/-! ## What is kept -/

/-- A call that cannot go on with this queue. -/
def Call.Waits (q : MsgQueue) : Call → Prop
  | .send c => q.qbytes < q.cbytes + c.data.length
  | .recv c => ∀ m ∈ q.messages, ¬ Wanted c.msgtyp c.except m

/-- What a call sleeps under. -/
def Call.key : Call → Key
  | .send c => .send c.msqid
  | .recv c => .recv c.msqid

def Key.msqid : Key → Int
  | .send msqid => msqid
  | .recv msqid => msqid

/-- Who sleeps is in a call that cannot go on. -/
def NoneStranded (s : St) : Prop :=
  ∀ pid k, s.asleep pid = some k → ∃ c, s.calls pid = some c ∧ c.key = k ∧
    ∀ q, s.queues.objs k.msqid = some q → c.Waits q

/-- What was put into the queues and taken from them. -/
structure Tallied (s : St) : Prop where
  once : ∀ id, (s.got id).Nodup
  sent : ∀ id, ∀ m ∈ s.got id, m ∈ s.sent id
  queued : ∀ id q, s.queues.objs id = some q → (s.got id ++ q.messages).Perm (s.sent id)
  stat : ∀ id q c now ds s', s.queues.objs id = some q →
    s.msgctl c id (.ipcStat false) now = .ok (some ds, s') →
    ds.cbytes = bytes q.messages ∧ ds.cbytes + bytes (s.got id) = bytes (s.sent id)

/-- The step takes no message from the queues, or one by the rule. -/
def ByRule (s : St) (e : Event) (s' : St) : Prop :=
  s'.got = s.got ∨ ∃ pid c q i m, turnOf s e = some (pid, .recv c) ∧
    s.queues.objs c.msqid = some q ∧ Chosen q.messages c.msgtyp c.except i m ∧
    s'.got = update s.got c.msqid (s.got c.msqid ++ [m]) ∧
    (s'.queues.objs c.msqid).map MsgQueue.messages = some (q.messages.eraseIdx i)

/-- No limit is raised so far that the message of a process asleep in `msgsnd` fits. -/
def Steady (s : St) : Event → Prop
  | .msgctl _ _ msqid (.ipcSet (some (_, _, _, qbytes))) _ =>
    ∀ q, s.queues.objs msqid = some q → qbytes ≤ q.qbytes ∨
      ∀ pid c, s.asleep pid = some (.send msqid) → s.calls pid = some (.send c) →
        qbytes < q.cbytes + c.data.length
  | _ => True

/-! ## What a turn does -/

/-- The turn put a message into the queue. -/
structure Put (s s' : St) (pid : Pid) (c : SendCall) : Prop where
  queue : ∃ q q' m, s.queues.objs c.msqid = some q ∧ m.no = (s.sent c.msqid).length ∧
    s'.queues = s.queues.put c.msqid q' ∧ q'.qbytes = q.qbytes ∧ q'.messages = q.messages ++ [m] ∧
    s'.sent = update s.sent c.msqid (s.sent c.msqid ++ [m])
  got : s'.got = s.got
  woken : s'.asleep = wakeBlockedReceivers c.msqid s.asleep
  ended : s'.calls = update s.calls pid none

/-- The turn took a message from the queue. -/
structure Took (s s' : St) (pid : Pid) (c : RecvCall) : Prop where
  queue : ∃ q q' i m, s.queues.objs c.msqid = some q ∧ Chosen q.messages c.msgtyp c.except i m ∧
    s'.queues = s.queues.put c.msqid q' ∧ q'.messages = q.messages.eraseIdx i ∧
    s'.got = update s.got c.msqid (s.got c.msqid ++ [m])
  sent : s'.sent = s.sent
  woken : s'.asleep = wakeBlockedSenders c.msqid s.asleep
  ended : s'.calls = update s.calls pid none

/-- The turn left the queues alone. -/
structure Same (s s' : St) : Prop where
  queues : s'.queues = s.queues
  sent : s'.sent = s.sent
  got : s'.got = s.got

/-- The turn went to sleep. -/
structure Slept (s s' : St) (pid : Pid) (c : Call) : Prop where
  same : Same s s'
  queue : ∃ q, s.queues.objs c.key.msqid = some q ∧ c.Waits q
  asleep : s'.asleep = update s.asleep pid (some c.key)
  goesOn : s'.calls = update s.calls pid (some c)

/-- The turn returned an error. -/
structure Refused (s s' : St) (pid : Pid) : Prop where
  same : Same s s'
  asleep : s'.asleep = s.asleep
  ended : s'.calls = update s.calls pid none

/-- What one turn of a call can do. -/
inductive Turn (s s' : St) (pid : Pid) : Call → Prop
  | put (c : SendCall) (h : Put s s' pid c) : Turn s s' pid (.send c)
  | took (c : RecvCall) (h : Took s s' pid c) : Turn s s' pid (.recv c)
  | slept (c : Call) (h : Slept s s' pid c) : Turn s s' pid c
  | refused (c : Call) (h : Refused s s' pid) : Turn s s' pid c

/-- The state after a turn. -/
def after (pid : Pid) (c : Call) (rs : Option (Except Errno Nat) × St) : St :=
  { rs.2 with calls := update rs.2.calls pid (if rs.1.isNone then some c else none) }

variable {s s' : St} {pid : Pid} {now : Int} {c : Call} {e : Event}

theorem refused_after (pid : Pid) (c : Call) (e : Errno) :
    Turn s (after pid c (some (.error e), s)) pid c :=
  .refused c ⟨⟨rfl, rfl, rfl⟩, rfl, rfl⟩

theorem sendTurn_cases (s : St) (pid : Pid) (c : SendCall) (now : Int) :
    Turn s (after pid (.send c) (s.sendTurn pid c now)) pid (.send c) := by
  unfold St.sendTurn
  split
  · exact refused_after ..
  · rename_i q hq
    split
    · exact refused_after ..
    split
    · exact refused_after ..
    split
    · exact .put c ⟨⟨q, _, _, hq, rfl, rfl, rfl, rfl, rfl⟩, rfl, rfl, rfl⟩
    split
    · exact refused_after ..
    · rename_i hfull _
      exact .slept _ ⟨⟨rfl, rfl, rfl⟩, ⟨q, hq, not_le.1 hfull⟩, rfl, rfl⟩

theorem recvTurn_cases {c : RecvCall} {fault : Bool} {rs : Option (Except Errno Nat) × St}
    (h : s.recvTurn pid c fault now = some rs) : Turn s (after pid (.recv c) rs) pid (.recv c) := by
  unfold St.recvTurn at h
  split at h
  · cases h
    exact refused_after ..
  · rename_i q hq
    split at h
    · cases h
      exact refused_after ..
    obtain ⟨found, hfound, rfl⟩ := map_eq_some_iff.1 h
    split
    · rename_i i m hsome
      obtain ⟨i', rfl, hm⟩ := bind_eq_some_iff.1 hsome
      obtain ⟨m', hm', heq⟩ := map_eq_some_iff.1 hm
      cases heq
      obtain ⟨m₀, hchosen⟩ := findMatchingIndex_chosen hfound
      have hsame : m₀ = m := some.inj (hchosen.here.symm.trans hm')
      subst hsame
      split
      · exact refused_after ..
      · exact .took c ⟨⟨q, _, i, m₀, hq, hchosen, rfl, rfl, rfl⟩, rfl, rfl, rfl⟩
    · rename_i hnone
      have hnot : found = none := by
        cases found with
        | none => rfl
        | some i =>
          obtain ⟨m, hchosen⟩ := findMatchingIndex_chosen hfound
          rw [bind_some, hchosen.here] at hnone
          cases hnone
      subst hnot
      split
      · exact refused_after ..
      · exact .slept _ ⟨⟨rfl, rfl, rfl⟩, ⟨q, hq, findMatchingIndex_none hfound⟩, rfl, rfl⟩

/-- **What one turn of a call does.** -/
theorem enter_cases {fault : Bool} (h : s.enter pid c fault now = some s') : Turn s s' pid c := by
  obtain ⟨rs, hturn, rfl⟩ := map_eq_some_iff.1 h
  cases c with
  | send c =>
    cases hturn
    exact sendTurn_cases s pid c now
  | recv c => exact recvTurn_cases hturn

/-- An event that runs a turn runs it. -/
theorem step_turn (hturn : turnOf s e = some (pid, c)) (h : s.step e = some s') :
    s.asleep pid = none ∧ Turn s s' pid c := by
  cases e with
  | msgsnd pid' cred msqid mtype len text flag now =>
    rw [turnOf] at hturn
    rw [St.step] at h
    split_ifs at h with hawake
    split at hturn
    · rename_i c' hc
      cases hturn
      rw [hc] at h
      exact ⟨hawake.1, enter_cases h⟩
    · cases hturn
  | msgrcv pid' c' fault now =>
    cases hturn
    rw [St.step] at h
    split_ifs at h with hawake
    exact ⟨hawake.1, enter_cases h⟩
  | resume pid' fault now =>
    rw [St.step] at h
    split_ifs at h with hawake
    obtain ⟨c', hc, heq⟩ := map_eq_some_iff.1 hturn
    cases heq
    rw [hc] at h
    exact ⟨hawake, enter_cases h⟩
  | _ => cases hturn

theorem Turn.byRule (h : Turn s s' pid c) (hturn : turnOf s e = some (pid, c)) : ByRule s e s' := by
  cases h with
  | put c h => exact .inl h.got
  | took c h =>
    obtain ⟨q, q', i, m, hq, hchosen, hqueues, hmessages, hgot⟩ := h.queue
    refine .inr ⟨pid, c, q, i, m, hturn, hq, hchosen, hgot, ?_⟩
    rw [hqueues, Ids.put_objs, update_self, map_some, hmessages]
  | slept c h => exact .inl h.same.got
  | refused c h => exact .inl h.same.got

/-! ## The other events -/

/-- What an event that runs no turn does to the queues and to who sleeps. -/
inductive Quiet (s s' : St) : Event → Prop
  | same (e : Event) (h : s' = s) : Quiet s s' e
  | get (e : Event) (fresh : MsgQueue) (hempty : fresh.messages = []) (t : Ids MsgQueue)
      (hgets : s.queues.Gets false fresh t) (h : s' = { s with queues := t }) : Quiet s s' e
  | set (pid : Pid) (c : Cred) (msqid : Int) (uid gid mode qbytes : Nat) (now : Int) (q q' : MsgQueue)
      (hq : s.queues.objs msqid = some q) (hlimit : q'.qbytes = qbytes)
      (hmessages : q'.messages = q.messages)
      (h : s' = { s with queues := s.queues.put msqid q' }) :
      Quiet s s' (.msgctl pid c msqid (.ipcSet (some (uid, gid, mode, qbytes))) now)
  | rmid (e : Event) (msqid key : Int)
      (h : s' = { s with
        queues := s.queues.remove msqid key
        asleep := wakeBlockedReceivers msqid (wakeBlockedSenders msqid s.asleep) }) : Quiet s s' e
  | leave (e : Event) (pid : Pid)
      (h : s' = { s with
        asleep := update s.asleep pid none
        calls := update s.calls pid none }) : Quiet s s' e
  | rouse (e : Event) (pid : Pid)
      (h : s' = { s with asleep := update s.asleep pid none }) : Quiet s s' e

theorem msgctl_quiet {c : Cred} {msqid : Int} {cmd : Cmd} {r : Option MsqidDs}
    (h : s.msgctl c msqid cmd now = .ok (r, s')) : Quiet s s' (.msgctl pid c msqid cmd now) := by
  unfold St.msgctl at h
  split at h
  · cases h
  · cases h
  · split_ifs at h
    cases h
    exact .same _ rfl
  · rename_i raw q hq
    split_ifs at h
    split at h
    · cases h
    · cases h
      refine Quiet.set pid c msqid _ _ _ _ now q _ hq ?_ ?_ rfl <;> rfl
  · split_ifs at h
    cases h
    exact .rmid _ _ _ rfl

theorem step_quiet (hturn : turnOf s e = none) (h : s.step e = some s') : Quiet s s' e := by
  cases e with
  | msgget c key flag now =>
    obtain ⟨⟨r, t⟩, hget, rfl⟩ := map_eq_some_iff.1 h
    exact .get _ _ rfl t (Ids.getOrCreate_gets hget) rfl
  | msgsnd pid cred msqid mtype len text flag now =>
    rw [turnOf] at hturn
    rw [St.step] at h
    split_ifs at h
    split at hturn
    · cases hturn
    · rename_i e he
      rw [he] at h
      cases h
      exact .same _ rfl
  | msgrcv pid c fault now => cases hturn
  | resume pid fault now =>
    rw [St.step] at h
    split_ifs at h
    obtain ⟨c, hc, -⟩ := bind_eq_some_iff.1 h
    rw [turnOf, hc] at hturn
    cases hturn
  | msgctl pid c msqid cmd now =>
    rw [St.step] at h
    split_ifs at h
    split at h
    · cases h
      exact .same _ rfl
    · rename_i r t hctl
      cases h
      exact msgctl_quiet hctl
  | leave pid =>
    cases h
    exact .leave _ pid rfl
  | rouse pid =>
    cases h
    exact .rouse _ pid rfl

theorem Quiet.logs (h : Quiet s s' e) : s'.sent = s.sent ∧ s'.got = s.got := by
  cases h
  all_goals
    subst_vars
    exact ⟨rfl, rfl⟩

theorem step_byRule (h : s.step e = some s') : ByRule s e s' := by
  cases hturn : turnOf s e with
  | some pc =>
    exact (step_turn hturn h).2.byRule hturn
  | none => exact .inl (step_quiet hturn h).logs.2

/-! ## The ledger -/

/-- What was put into a queue is numbered in order, and is what was taken and what is still there. -/
structure Ledger (t : Ids MsgQueue) (sent got : Int → List SysvMessage) : Prop where
  numbered : ∀ id, (sent id).map SysvMessage.no = List.range (sent id).length
  rest : ∀ id, ∃ rest, (got id ++ rest).Perm (sent id) ∧
    ∀ q, t.objs id = some q → q.messages = rest
  fresh : ∀ id, t.next ≤ id → sent id = [] ∧ got id = []

namespace Ledger

variable {t t' : Ids MsgQueue} {sent got : Int → List SysvMessage} {id : Int} {q q' : MsgQueue}

/-- A queue whose messages do not change. -/
theorem keep (h : Ledger t sent got) (hnext : t'.next = t.next)
    (hobjs : ∀ id q', t'.objs id = some q' → ∃ q, t.objs id = some q ∧ q'.messages = q.messages) :
    Ledger t' sent got := by
  refine ⟨h.numbered, fun id ↦ ?_, fun id hid ↦ h.fresh id (hnext ▸ hid)⟩
  obtain ⟨rest, hperm, hq⟩ := h.rest id
  refine ⟨rest, hperm, fun q' hq' ↦ ?_⟩
  obtain ⟨q, hold, hmessages⟩ := hobjs id q' hq'
  rw [hmessages]
  exact hq q hold

theorem gets {fresh : MsgQueue} (h : Ledger t sent got) (hempty : fresh.messages = [])
    (hgets : t.Gets false fresh t') : Ledger t' sent got := by
  cases hgets with
  | same => exact h
  | new _ _ hnext hobjs =>
    refine ⟨h.numbered, fun id ↦ ?_, fun id hid ↦ h.fresh id (by rw [hnext] at hid; omega)⟩
    by_cases heq : id = t.next
    · subst heq
      obtain ⟨hsent, hgot⟩ := h.fresh t.next le_rfl
      refine ⟨[], by rw [hsent, hgot, append_nil], fun q hq ↦ ?_⟩
      rw [hobjs, update_self, some.injEq] at hq
      rw [← hq, hempty]
    · rw [hobjs]
      simpa only [update_of_ne heq] using h.rest id

/-- The messages of one queue change, and what is on record of it. -/
theorem change (h : Ledger t sent got) (ht : t.Bounded) (hq : t.objs id = some q)
    {sent' got' : List SysvMessage} (hnumbered : sent'.map SysvMessage.no = List.range sent'.length)
    (hperm : (got id ++ q.messages).Perm (sent id) → (got' ++ q'.messages).Perm sent') :
    Ledger (t.put id q') (update sent id sent') (update got id got') := by
  refine ⟨fun id' ↦ ?_, fun id' ↦ ?_, fun id' hid' ↦ ?_⟩ <;> by_cases heq : id' = id
  · rw [heq, update_self]
    exact hnumbered
  · rw [update_of_ne heq]
    exact h.numbered id'
  · obtain ⟨rest, hrest, hmessages⟩ := h.rest id
    rw [heq, Ids.put_objs, update_self, update_self, update_self]
    exact ⟨q'.messages, hperm (hmessages q hq ▸ hrest), fun q₁ hq₁ ↦ by cases hq₁; rfl⟩
  · rw [Ids.put_objs, update_of_ne heq, update_of_ne heq, update_of_ne heq]
    exact h.rest id'
  · have := ht id q hq
    rw [Ids.put_next] at hid'
    omega
  · rw [update_of_ne heq, update_of_ne heq]
    exact h.fresh id' hid'

theorem put (h : Ledger t sent got) (ht : t.Bounded) (hq : t.objs id = some q) {m : SysvMessage}
    (hno : m.no = (sent id).length) (hmessages : q'.messages = q.messages ++ [m]) :
    Ledger (t.put id q') (update sent id (sent id ++ [m])) got := by
  rw [← update_eq_self id got]
  refine h.change ht hq ?_ fun hperm ↦ ?_
  · rw [map_append, h.numbered, length_append, length_singleton, range_succ,
      map_singleton, hno]
  · rw [hmessages, ← append_assoc]
    exact hperm.append_right [m]

theorem take (h : Ledger t sent got) (ht : t.Bounded) (hq : t.objs id = some q) {i : Nat}
    {m : SysvMessage} (hm : q.messages[i]? = some m) (hmessages : q'.messages = q.messages.eraseIdx i) :
    Ledger (t.put id q') sent (update got id (got id ++ [m])) := by
  rw [← update_eq_self id sent]
  refine h.change ht hq (h.numbered id) fun hperm ↦ ?_
  obtain ⟨hi, rfl⟩ := List.getElem?_eq_some_iff.1 hm
  rw [hmessages, append_assoc]
  exact ((getElem_cons_eraseIdx_perm hi).append_left _).trans hperm

end Ledger

/-- What holds of every run: ids are not used twice, and the ledger. -/
structure Books (s : St) : Prop where
  bounded : s.queues.Bounded
  ledger : Ledger s.queues s.sent s.got

theorem Turn.books (h : Turn s s' pid c) (hs : Books s) : Books s' := by
  have hsame : Same s s' → Books s' := by
    intro h
    exact ⟨by rw [h.queues]; exact hs.bounded, by rw [h.queues, h.sent, h.got]; exact hs.ledger⟩
  cases h with
  | put c h =>
    obtain ⟨q, q', m, hq, hno, hqueues, -, hmessages, hsent⟩ := h.queue
    refine ⟨by rw [hqueues]; exact hs.bounded.put hq, ?_⟩
    rw [hqueues, hsent, h.got]
    exact hs.ledger.put hs.bounded hq hno hmessages
  | took c h =>
    obtain ⟨q, q', i, m, hq, hchosen, hqueues, hmessages, hgot⟩ := h.queue
    refine ⟨by rw [hqueues]; exact hs.bounded.put hq, ?_⟩
    rw [hqueues, h.sent, hgot]
    exact hs.ledger.take hs.bounded hq hchosen.here hmessages
  | slept c h => exact hsame h.same
  | refused c h => exact hsame h.same

theorem Quiet.books (h : Quiet s s' e) (hs : Books s) : Books s' := by
  cases h with
  | same _ h => exact h ▸ hs
  | get _ fresh hempty t hgets h =>
    subst h
    exact ⟨hgets.bounded hs.bounded, hs.ledger.gets hempty hgets⟩
  | set pid c msqid uid gid mode qbytes now q q' hq hlimit hmessages h =>
    subst h
    refine ⟨hs.bounded.put hq, hs.ledger.keep rfl fun id q₁ hq₁ ↦ ?_⟩
    by_cases heq : id = msqid
    · subst heq
      rw [Ids.put_objs, update_self, some.injEq] at hq₁
      exact ⟨q, hq, by rw [← hq₁, hmessages]⟩
    · rw [Ids.put_objs, update_of_ne heq] at hq₁
      exact ⟨q₁, hq₁, rfl⟩
  | rmid _ msqid key h =>
    subst h
    refine ⟨hs.bounded.remove msqid key, hs.ledger.keep rfl fun id q₁ hq₁ ↦ ?_⟩
    by_cases heq : id = msqid
    · subst heq
      simp at hq₁
    · rw [Ids.remove_objs, update_of_ne heq] at hq₁
      exact ⟨q₁, hq₁, rfl⟩
  | leave _ pid h =>
    subst h
    exact ⟨hs.bounded, hs.ledger⟩
  | rouse _ pid h =>
    subst h
    exact ⟨hs.bounded, hs.ledger⟩

theorem step_books (hs : Books s) (h : s.step e = some s') : Books s' := by
  cases hturn : turnOf s e with
  | some pc =>
    exact (step_turn hturn h).2.books hs
  | none => exact (step_quiet hturn h).books hs

theorem books_init : Books St.init := by
  refine ⟨Ids.bounded_empty, ⟨fun _ ↦ rfl, fun _ ↦ ⟨[], .nil, fun _ h ↦ ?_⟩, fun _ _ ↦ ⟨rfl, rfl⟩⟩⟩
  cases h

theorem bytes_perm {l l' : List SysvMessage} (h : l.Perm l') : bytes l = bytes l' :=
  (h.map _).sum_eq

theorem bytes_append (l l' : List SysvMessage) : bytes (l ++ l') = bytes l + bytes l' := by
  rw [bytes, map_append, sum_append]
  rfl

theorem Books.tallied (hs : Books s) : Tallied s := by
  have hnodup : ∀ id, (s.sent id).Nodup := fun id ↦
    Nodup.of_map SysvMessage.no (hs.ledger.numbered id ▸ nodup_range)
  refine ⟨fun id ↦ ?_, fun id m hm ↦ ?_, fun id q hq ↦ ?_, fun id q c now ds s' hq h ↦ ?_⟩
  · obtain ⟨rest, hperm, -⟩ := hs.ledger.rest id
    exact (nodup_append.1 (hperm.nodup_iff.2 (hnodup id))).1
  · obtain ⟨rest, hperm, -⟩ := hs.ledger.rest id
    exact hperm.subset (mem_append_left rest hm)
  · obtain ⟨rest, hperm, hrest⟩ := hs.ledger.rest id
    rw [hrest q hq]
    exact hperm
  · obtain ⟨rest, hperm, hrest⟩ := hs.ledger.rest id
    simp only [St.msgctl, hq] at h
    split_ifs at h
    cases h
    refine ⟨rfl, ?_⟩
    change bytes q.messages + _ = _
    rw [← bytes_perm hperm, bytes_append, hrest q hq, add_comm]

/-! ## Who sleeps -/

/-- Why a call may sleep under a key. -/
def Reason (t : Ids MsgQueue) (k : Key) (c : Call) : Prop :=
  c.key = k ∧ k.msqid < t.next ∧ ∀ q, t.objs k.msqid = some q → c.Waits q

def Awake (s : St) : Prop := Waiters.Pending s.asleep s.calls (Reason s.queues)

/-- A queue changes in a way that leaves the call waiting. -/
theorem Reason.put {t : Ids MsgQueue} {k : Key} {id : Int} {q q' : MsgQueue} (h : Reason t k c)
    (hq : t.objs id = some q) (hwaits : k.msqid = id → c.Waits q → c.Waits q') :
    Reason (t.put id q') k c := by
  obtain ⟨hkey, hlt, hw⟩ := h
  refine ⟨hkey, hlt, fun q₁ hq₁ ↦ ?_⟩
  by_cases heq : k.msqid = id
  · rw [Ids.put_objs, heq, update_self, some.injEq] at hq₁
    exact hq₁ ▸ hwaits heq (hw q (heq ▸ hq))
  · rw [Ids.put_objs, update_of_ne heq] at hq₁
    exact hw q₁ hq₁

theorem Put.awake {c : SendCall} (h : Put s s' pid c) (hs : Awake s)
    (hawake : s.asleep pid = none) : Awake s' := by
  obtain ⟨q, q', m, hq, -, hqueues, hlimit, hmessages, -⟩ := h.queue
  rw [Awake, h.woken, h.ended, hqueues]
  refine (hs.setCall hawake none).wake fun k c' hk hr ↦ hr.put hq fun heq hw ↦ ?_
  -- the receivers of the queue are woken, and for its senders there is even less room
  cases c' with
  | send c' =>
    change q'.qbytes < q'.cbytes + _
    have : q.qbytes < q.cbytes + c'.data.length := hw
    rw [MsgQueue.cbytes, hmessages, bytes_append]
    unfold MsgQueue.cbytes at this
    omega
  | recv c' =>
    obtain ⟨rfl, -⟩ := hr
    have hid : c'.msqid = c.msqid := heq
    simp [Call.key, hid] at hk

theorem Took.awake {c : RecvCall} (h : Took s s' pid c) (hs : Awake s)
    (hawake : s.asleep pid = none) : Awake s' := by
  obtain ⟨q, q', i, m, hq, -, hqueues, hmessages, -⟩ := h.queue
  rw [Awake, h.woken, h.ended, hqueues]
  refine (hs.setCall hawake none).wake fun k c' hk hr ↦ hr.put hq fun heq hw ↦ ?_
  cases c' with
  | send c' =>
    obtain ⟨rfl, -⟩ := hr
    have hid : c'.msqid = c.msqid := heq
    simp [Call.key, hid] at hk
  | recv c' =>
    intro m' hm'
    rw [hmessages] at hm'
    exact hw m' (mem_of_mem_eraseIdx hm')

theorem Turn.awake (h : Turn s s' pid c) (hs : Awake s) (hbooks : Books s)
    (hawake : s.asleep pid = none) : Awake s' := by
  cases h with
  | put c h => exact h.awake hs hawake
  | took c h => exact h.awake hs hawake
  | slept c h =>
    obtain ⟨q, hq, hw⟩ := h.queue
    rw [Awake, h.asleep, h.goesOn, h.same.queues]
    refine Waiters.Pending.sleep hs hawake ⟨rfl, hbooks.bounded _ q hq, fun q' hq' ↦ ?_⟩
    rw [hq, some.injEq] at hq'
    exact hq' ▸ hw
  | refused c h =>
    rw [Awake, h.asleep, h.ended, h.same.queues]
    exact hs.setCall hawake none

theorem Quiet.awake (h : Quiet s s' e) (hsteady : Steady s e) (hs : Awake s) : Awake s' := by
  cases h with
  | same _ h => exact h ▸ hs
  | get _ fresh hempty t hgets h =>
    subst h
    cases hgets with
    | same => exact hs
    | new _ _ hnext hobjs =>
      refine Waiters.Pending.mono hs fun k c hr ↦ ?_
      obtain ⟨hkey, hlt, hw⟩ := hr
      refine ⟨hkey, by rw [hnext]; omega, fun q hq ↦ hw q ?_⟩
      rw [hobjs, update_of_ne hlt.ne] at hq
      exact hq
  | set pid c msqid uid gid mode qbytes now q q' hq hlimit hmessages h =>
    subst h
    refine Waiters.Justified.mono hs fun pid' k hk ↦ ?_
    rintro ⟨c', hc', hr⟩
    refine ⟨c', hc', hr.put hq fun heq hw ↦ ?_⟩
    cases c' with
    | send c' =>
      obtain ⟨rfl, -⟩ := hr
      have hid : c'.msqid = msqid := heq
      have hfull : q.qbytes < q.cbytes + c'.data.length := hw
      change q'.qbytes < q'.cbytes + _
      rw [hlimit, MsgQueue.cbytes, hmessages]
      rcases hsteady q hq with hle | hall
      · unfold MsgQueue.cbytes at hfull
        omega
      · exact hall pid' c' (hid ▸ hk) hc'
    | recv c' =>
      intro m hm
      rw [hmessages] at hm
      exact hw m hm
  | rmid _ msqid key h =>
    subst h
    have hsenders : Waiters.Pending (wakeBlockedSenders msqid s.asleep) s.calls
        (fun k c ↦ k ≠ .send msqid ∧ Reason s.queues k c) :=
      Waiters.Pending.wake hs fun k c hk hr ↦ ⟨by simpa using hk, hr⟩
    refine hsenders.wake fun k c hk hr ↦ ?_
    obtain ⟨hsend, hkey, hlt, hw⟩ := hr
    have hrecv : k ≠ .recv msqid := by simpa using hk
    have hne : k.msqid ≠ msqid := by
      rintro rfl
      cases k with
      | send _ => exact hsend rfl
      | recv _ => exact hrecv rfl
    refine ⟨hkey, hlt, fun q hq ↦ hw q ?_⟩
    rw [Ids.remove_objs, update_of_ne hne] at hq
    exact hq
  | leave _ pid h =>
    subst h
    exact Waiters.Pending.leave hs pid
  | rouse _ pid h =>
    subst h
    exact Waiters.Pending.rouse hs pid

theorem step_awake (hsteady : Steady s e) (hs : Books s ∧ Awake s) (h : s.step e = some s') :
    Books s' ∧ Awake s' := by
  refine ⟨step_books hs.1 h, ?_⟩
  cases hturn : turnOf s e with
  | some pc =>
    obtain ⟨hawake, hturn⟩ := step_turn hturn h
    exact hturn.awake hs.2 hs.1 hawake
  | none => exact (step_quiet hturn h).awake hsteady hs.2

theorem awake_init : Awake St.init := fun _ _ h ↦ (by cases h)

/-- **Message queues** lose and repeat nothing, take by the rule, and strand nobody, in every run in
which no limit is raised over the head of a sleeping sender. -/
theorem run_steady {es : List Event} {s : St} (hsteady : Machine.Meets St.step Steady St.init es)
    (hrun : Machine.run St.step St.init es = some s) :
    Tallied s ∧ NoneStranded s ∧ ∀ e s', s.step e = some s' → ByRule s e s' := by
  have hs : Books s ∧ Awake s := Machine.run_inv (I := fun s ↦ Books s ∧ Awake s)
    (fun _ _ _ ↦ step_awake) ⟨books_init, awake_init⟩ hsteady hrun
  refine ⟨hs.1.tallied, fun pid k hk ↦ ?_, fun e s' ↦ step_byRule⟩
  obtain ⟨c, hc, hkey, -, hw⟩ := hs.2 pid k hk
  exact ⟨c, hc, hkey, hw⟩

/-- No limit is raised at all. -/
def Lowers (s : St) : Event → Prop
  | .msgctl _ _ msqid (.ipcSet (some (_, _, _, qbytes))) _ =>
    ∀ q ∈ s.queues.objs msqid, qbytes ≤ q.qbytes
  | _ => True

instance (s : St) : (e : Event) → Decidable (Lowers s e)
  | .msgctl _ _ msqid (.ipcSet (some (_, _, _, qbytes))) _ =>
    inferInstanceAs (Decidable (∀ q ∈ s.queues.objs msqid, qbytes ≤ q.qbytes))
  | .msgget .. | .msgsnd .. | .msgrcv .. | .resume .. | .leave .. | .rouse ..
  | .msgctl _ _ _ (.ipcStat _) _ | .msgctl _ _ _ (.ipcSet none) _ | .msgctl _ _ _ .ipcRmid _
  | .msgctl _ _ _ .other _ => isTrue trivial

theorem Lowers.steady (h : Lowers s e) : Steady s e := by
  unfold Steady
  split
  · exact fun q hq ↦ .inl (h q hq)
  · trivial

/-- Two messages, a lower limit, a sender that has to wait, and a receive that takes the lower type. -/
def traffic : List Event :=
  [.msgget ⟨0, 0⟩ 0 0o600 0,
   .msgsnd 1 ⟨0, 0⟩ 1 (some 3) 2 (some fun _ ↦ 7) 0 0,
   .msgsnd 1 ⟨0, 0⟩ 1 (some 2) 3 (some fun _ ↦ 8) 0 0,
   .msgctl 1 ⟨0, 0⟩ 1 (.ipcSet (some (0, 0, 0o600, 5))) 0,
   .msgsnd 2 ⟨0, 0⟩ 1 (some 1) 4 (some fun _ ↦ 9) 0 0,
   .msgrcv 3 ⟨⟨0, 0⟩, 1, 100, -3, 0⟩ false 0,
   .resume 2 false 0]

theorem run_steady_traffic : ∃ s, Machine.run St.step St.init traffic = some s ∧
    (s.asleep 2 = some (.send 1) ∧ s.got 1 = [⟨2, [8, 8, 8], 1⟩]) ∧
    (Tallied s ∧ NoneStranded s ∧ ∀ e s', s.step e = some s' → ByRule s e s') := by
  refine Machine.exists_run_of (fun s ↦ s.asleep 2 = some (.send 1) ∧ s.got 1 = [⟨2, [8, 8, 8], 1⟩])
    (by decide +kernel) fun s hrun hs ↦ ?_
  have hlowers : Machine.Meets St.step Lowers St.init traffic := by decide +kernel
  exact ⟨hs, run_steady (hlowers.mono fun _ _ ↦ Lowers.steady) hrun⟩

/-- A sender waits at a limit of 5 bytes, and the limit is raised to 100. -/
def raised : List Event :=
  [.msgget ⟨0, 0⟩ 0 0o600 0,
   .msgctl 1 ⟨0, 0⟩ 1 (.ipcSet (some (0, 0, 0o600, 5))) 0,
   .msgsnd 1 ⟨0, 0⟩ 1 (some 1) 5 (some fun _ ↦ 7) 0 0,
   .msgsnd 2 ⟨0, 0⟩ 1 (some 1) 5 (some fun _ ↦ 8) 0 0,
   .msgctl 1 ⟨0, 0⟩ 1 (.ipcSet (some (0, 0, 0o600, 100))) 0]

/-- The sender sleeps on although its message fits; and a `msgrcv` with the most negative `msgtyp`,
which every message there is would do for, stops the kernel. -/
theorem raised_not_noneStranded : ∃ s, Machine.run St.step St.init raised = some s ∧
    ¬ NoneStranded s ∧
    ((∃ q m, s.queues.objs 1 = some q ∧ m ∈ q.messages ∧ Wanted i64Min false m) ∧
      s.step (.msgrcv 3 ⟨⟨0, 0⟩, 1, 100, i64Min, 0⟩ false 0) = none) := by
  refine Machine.exists_run_of (fun s ↦ s.asleep 2 = some (.send 1) ∧
    s.calls 2 = some (.send ⟨⟨0, 0⟩, 1, 1, [8, 8, 8, 8, 8], 0⟩) ∧
    (s.queues.objs 1).map (fun q ↦ (q.qbytes, q.messages)) = some (100, [⟨1, [7, 7, 7, 7, 7], 0⟩]) ∧
    (s.step (.msgrcv 3 ⟨⟨0, 0⟩, 1, 100, i64Min, 0⟩ false 0)).isNone = true) (by decide +kernel)
    fun s _ ⟨hasleep, hcall, hqueue, hstep⟩ ↦ ?_
  obtain ⟨q, hq, heq⟩ := map_eq_some_iff.1 hqueue
  obtain ⟨hlimit, hmessages⟩ := Prod.mk.injEq .. ▸ heq
  refine ⟨fun h ↦ ?_, ⟨q, ⟨1, [7, 7, 7, 7, 7], 0⟩, hq, ?_, by decide⟩,
    isNone_iff_eq_none.1 hstep⟩
  · obtain ⟨c, hc, -, hw⟩ := h 2 (.send 1) hasleep
    rw [hcall, some.injEq] at hc
    subst hc
    have hfull : q.qbytes < q.cbytes + 5 := hw q hq
    rw [MsgQueue.cbytes, hlimit, hmessages] at hfull
    revert hfull
    decide
  · rw [hmessages]
    exact mem_singleton_self _

end OxideBSD.Msg
