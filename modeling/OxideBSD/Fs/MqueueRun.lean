import OxideBSD.Fs.Mqueue

/-!
# The order of POSIX message queues

What the events of the machine of `OxideBSD.Fs.Mqueue` do, and the order they keep.

* `Turn`, `enter_cases`: what one turn of a send or a receive can do.  `Keeps`, `step_quiet`: the other
  events leave the messages alone.
* `Ordered`, `step_books`: a queue holds at most `mq_maxmsg` messages, by decreasing priority and by
  arrival within one priority.
* `TakesFirst`, `step_takesFirst`: a step leaves the messages of a queue alone, puts one in at its
  place, or takes the first.
-/

set_option autoImplicit false

namespace OxideBSD.Mq

open Function Ipc List Option

/-! ## What is kept -/

/-- The order in which messages are received. -/
def Before (a b : Message) : Prop :=
  b.priority < a.priority ∨ (a.priority = b.priority ∧ a.no < b.no)

/-- The queues are in order and within their limits. -/
def Ordered (s : St) : Prop :=
  ∀ id q, s.queues id = some q → q.messages.length ≤ q.maxMsg ∧ q.messages.Pairwise Before

/-- The messages of every queue stay, or get one more at its place, or lose the first. -/
def TakesFirst (s : St) (e : Event) (s' : St) : Prop :=
  ∀ id q q', s.queues id = some q → s'.queues id = some q' →
    q'.messages = q.messages ∨
    (∃ pid c env m, turnOf s e = some (pid, .send c, env) ∧ c.mqId = id ∧
      q'.messages = insertByPriority q.messages m) ∨
    ∃ pid c env m, turnOf s e = some (pid, .recv c, env) ∧ c.mqId = id ∧ q.messages = m :: q'.messages

def Key.mqId : Key → Nat
  | .space id _ => id
  | .data id _ => id

/-- A call that cannot go on with this queue: a send if it is full, a receive if it is empty. -/
def Call.Waits (q : MessageQueue) : Call → Prop
  | .send _ => q.maxMsg ≤ q.messages.length
  | .recv _ => q.messages = []

/-- A key that the call may sleep under. -/
def Call.Under : Call → Key → Prop
  | .send c, .space id _ => c.mqId = id
  | .recv c, .data id _ => c.mqId = id
  | _, _ => False

/-! ## Insertion -/

theorem insertByPriority_cons (m' m : Message) (messages : List Message) :
    insertByPriority (m' :: messages) m =
      if m'.priority < m.priority then m :: m' :: messages
      else m' :: insertByPriority messages m := by
  unfold insertByPriority
  rw [findIdx?_cons]
  by_cases h : m'.priority < m.priority
  · simp [h]
  · simp only [h]
    cases messages.findIdx? fun m' ↦ decide (m'.priority < m.priority) <;> rfl

theorem insertByPriority_length (messages : List Message) (m : Message) :
    (insertByPriority messages m).length = messages.length + 1 := by
  induction messages with
  | nil => rfl
  | cons m' messages ih =>
    rw [insertByPriority_cons]
    split
    · rfl
    · rw [length_cons, ih, length_cons]

theorem mem_insertByPriority {messages : List Message} {m a : Message} :
    a ∈ insertByPriority messages m ↔ a = m ∨ a ∈ messages := by
  induction messages with
  | nil => simp [insertByPriority]
  | cons m' messages ih =>
    rw [insertByPriority_cons]
    split
    · simp
    · rw [mem_cons, mem_cons]
      tauto

/-- A message that arrives after all others is put at its place. -/
theorem pairwise_insertByPriority {messages : List Message} {m : Message}
    (h : messages.Pairwise Before) (hno : ∀ m' ∈ messages, m'.no < m.no) :
    (insertByPriority messages m).Pairwise Before := by
  induction messages with
  | nil => exact pairwise_singleton _ _
  | cons m' messages ih =>
    obtain ⟨hhead, htail⟩ := pairwise_cons.1 h
    rw [insertByPriority_cons]
    split
    · rename_i hlt
      refine pairwise_cons.2 ⟨fun a ha ↦ .inl ?_, h⟩
      rcases mem_cons.1 ha with rfl | ha
      · exact hlt
      · rcases hhead a ha with h | h <;> omega
    · rename_i hle
      refine pairwise_cons.2
        ⟨fun a ha ↦ ?_, ih htail fun a ha ↦ hno a (mem_cons_of_mem _ ha)⟩
      rcases mem_insertByPriority.1 ha with rfl | ha
      · have := hno m' mem_cons_self
        unfold Before
        omega
      · exact hhead a ha

/-! ## What a turn does -/

/-- The turn put a message into the queue. -/
structure Pushed (s s' : St) (pid : Pid) (c : SendCall) : Prop where
  queue : ∃ q q', s.queues c.mqId = some q ∧ q.messages.length < q.maxMsg ∧
    s'.queues = update s.queues c.mqId (some q') ∧ q'.maxMsg = q.maxMsg ∧
    q'.messages = insertByPriority q.messages ⟨c.prio, c.data, s.count c.mqId⟩
  count : s'.count = update s.count c.mqId (s.count c.mqId + 1)
  next : s'.next = s.next
  woken : s'.asleep = wakeBlockedReceivers c.mqId s.asleep
  ended : s'.calls = update s.calls pid none

/-- The turn took the first message, and woke the senders if that could be copied out. -/
structure Taken (s s' : St) (pid : Pid) (c : RecvCall) (env : Env) : Prop where
  queue : ∃ q q' m, s.queues c.mqId = some q ∧
    s'.queues = update s.queues c.mqId (some q') ∧ q'.maxMsg = q.maxMsg ∧
    q.messages = m :: q'.messages
  count : s'.count = s.count
  next : s'.next = s.next
  woken : s'.asleep = if env.copy = .done then wakeBlockedSenders c.mqId s.asleep else s.asleep
  ended : s'.calls = update s.calls pid none

/-- The turn left the queues alone. -/
structure Same (s s' : St) : Prop where
  queues : s'.queues = s.queues
  count : s'.count = s.count
  next : s'.next = s.next

/-- The turn went to sleep. -/
structure Slept (s s' : St) (pid : Pid) (c : Call) : Prop where
  same : Same s s'
  queue : ∃ k q, c.Under k ∧ s.queues k.mqId = some q ∧ c.Waits q ∧
    s'.asleep = update s.asleep pid (some k)
  goesOn : s'.calls = update s.calls pid (some c)

/-- The turn returned an error. -/
structure Refused (s s' : St) (pid : Pid) : Prop where
  same : Same s s'
  asleep : s'.asleep = s.asleep
  ended : s'.calls = update s.calls pid none

/-- What one turn of a call can do. -/
inductive Turn (s s' : St) (pid : Pid) (env : Env) : Call → Prop
  | pushed (c : SendCall) (h : Pushed s s' pid c) : Turn s s' pid env (.send c)
  | taken (c : RecvCall) (h : Taken s s' pid c env) : Turn s s' pid env (.recv c)
  | slept (c : Call) (h : Slept s s' pid c) : Turn s s' pid env c
  | refused (c : Call) (h : Refused s s' pid) : Turn s s' pid env c

/-- The state after a turn. -/
def after (pid : Pid) (c : Call) (rs : Option (Except Errno Nat) × St) : St :=
  { rs.2 with calls := update rs.2.calls pid (if rs.1.isNone then some c else none) }

variable {s s' : St} {env : Env} {e : Event} {pid : Pid}

theorem refused_after (pid : Pid) (c : Call) (e : Errno) :
    Turn s (after pid c (some (.error e), s)) pid env c :=
  .refused c ⟨⟨rfl, rfl, rfl⟩, rfl, rfl⟩

theorem sendTurn_cases (s : St) (pid : Pid) (c : SendCall) (env : Env) :
    Turn s (after pid (.send c) (s.sendTurn pid c env)) pid env (.send c) := by
  unfold St.sendTurn
  split
  · exact refused_after ..
  rename_i q hq
  split
  · exact refused_after ..
  split
  · rename_i hroom
    exact .pushed c ⟨⟨q, _, hq, hroom, rfl, rfl, rfl⟩, rfl, rfl, rfl, rfl⟩
  split
  · exact refused_after ..
  split
  · exact refused_after ..
  split
  · exact refused_after ..
  · rename_i hfull _ _ _
    exact .slept _ ⟨⟨rfl, rfl, rfl⟩, ⟨.space c.mqId c.deadline, q, rfl, hq, Int.not_lt.1 hfull, rfl⟩, rfl⟩

theorem recvTurn_cases (s : St) (pid : Pid) (c : RecvCall) (env : Env) :
    Turn s (after pid (.recv c) (s.recvTurn pid c env)) pid env (.recv c) := by
  unfold St.recvTurn
  split
  · exact refused_after ..
  rename_i q hq
  split
  · exact refused_after ..
  split
  · rename_i m rest hmessages
    cases hcopy : env.copy with
    | done => exact .taken c ⟨⟨q, _, m, hq, rfl, rfl, hmessages⟩, rfl, rfl, by rw [hcopy]; rfl, rfl⟩
    | dataFault =>
      exact .taken c ⟨⟨q, _, m, hq, rfl, rfl, hmessages⟩, rfl, rfl, by rw [hcopy]; rfl, rfl⟩
    | prioFault =>
      exact .taken c ⟨⟨q, _, m, hq, rfl, rfl, hmessages⟩, rfl, rfl, by rw [hcopy]; rfl, rfl⟩
  rename_i hempty
  split
  · exact refused_after ..
  split
  · exact refused_after ..
  rename_i deadline _
  split
  · exact refused_after ..
  split
  · exact refused_after ..
  · exact .slept _ ⟨⟨rfl, rfl, rfl⟩, ⟨.data c.mqId deadline, q, rfl, hq, hempty, rfl⟩, rfl⟩

/-- **What one turn of a call does.** -/
theorem enter_cases (s : St) (pid : Pid) (c : Call) (env : Env) :
    Turn s (s.enter pid c env) pid env c := by
  cases c with
  | send c => exact sendTurn_cases s pid c env
  | recv c => exact recvTurn_cases s pid c env

/-- An event that runs a turn runs it. -/
theorem step_turn {c : Call} (hturn : turnOf s e = some (pid, c, env)) (h : s.step e = some s') :
    s.asleep pid = none ∧ Turn s s' pid env c := by
  cases e with
  | mqTimedsend pid' realFd len prio deadline text env' =>
    rw [turnOf] at hturn
    rw [St.step] at h
    split_ifs at h with hfree
    split at hturn
    · rename_i c' hc
      cases hturn
      rw [hc] at h
      cases h
      exact ⟨hfree.2.1, enter_cases ..⟩
    · cases hturn
  | mqTimedreceive pid' realFd len env' =>
    rw [turnOf] at hturn
    rw [St.step] at h
    split_ifs at h with hfree
    split at hturn
    · rename_i c' hc
      cases hturn
      rw [hc] at h
      cases h
      exact ⟨hfree.2.1, enter_cases ..⟩
    · cases hturn
  | resume pid' env' =>
    rw [St.step] at h
    split_ifs at h with hawake
    obtain ⟨c', hc, heq⟩ := map_eq_some_iff.1 hturn
    cases heq
    rw [hc] at h
    cases h
    exact ⟨hawake, enter_cases ..⟩
  | _ => cases hturn

/-! ## The other events -/

/-- The queues that are there after the step were there before with the same messages, or one is new. -/
structure Keeps (s s' : St) : Prop where
  queues : ∀ id q', s'.queues id = some q' →
    (∃ q, s.queues id = some q ∧ q'.messages = q.messages ∧ q'.maxMsg = q.maxMsg) ∨
    (id = s.next ∧ id < s'.next ∧ q'.messages = [] ∧ 0 < q'.maxMsg)
  next : s.next ≤ s'.next
  count : s'.count = s.count
  asleep : s'.asleep = s.asleep
  calls : s'.calls = s.calls

namespace Keeps

variable {s s' : St}

theorem of_eq (hqueues : s'.queues = s.queues) (hnext : s'.next = s.next) (hcount : s'.count = s.count)
    (hasleep : s'.asleep = s.asleep) (hcalls : s'.calls = s.calls) : Keeps s s' :=
  ⟨fun _ q' h ↦ .inl ⟨q', hqueues ▸ h, rfl, rfl⟩, Nat.le_of_eq hnext.symm, hcount, hasleep, hcalls⟩

theorem refl (s : St) : Keeps s s := of_eq rfl rfl rfl rfl rfl

/-- A queue changes in other things than its messages and its limit. -/
theorem put (h : Keeps s s') {id : Nat} {q q' : MessageQueue} (hq : s'.queues id = some q)
    (hmessages : q'.messages = q.messages) (hmax : q'.maxMsg = q.maxMsg) : Keeps s (s'.put id q') := by
  refine ⟨fun id' q₁ h₁ ↦ ?_, h.next, h.count, h.asleep, h.calls⟩
  by_cases heq : id' = id
  · subst heq
    rw [put_queues, update_self, some.injEq] at h₁
    subst h₁
    rw [hmessages, hmax]
    exact h.queues id' q hq
  · rw [put_queues, update_of_ne heq] at h₁
    exact h.queues id' q₁ h₁

theorem remove (h : Keeps s s') (id : Nat) : Keeps s (s'.remove id) := by
  refine ⟨fun id' q₁ h₁ ↦ ?_, h.next, h.count, h.asleep, h.calls⟩
  by_cases heq : id' = id
  · subst heq
    rw [remove_queues, update_self] at h₁
    cases h₁
  · rw [remove_queues, update_of_ne heq] at h₁
    exact h.queues id' q₁ h₁

/-- Names and descriptors change. -/
theorem rename (h : Keeps s s') (names : List UInt8 → Option Nat) (ends : Nat → Option MqEnd)
    (table : List Pid) : Keeps s { s' with names, ends, table } :=
  ⟨h.queues, h.next, h.count, h.asleep, h.calls⟩

end Keeps

theorem lookup_keeps {name : List UInt8} {flags : Nat} {attr : Option (Option (Int × Int))}
    {id : Nat} (h : s.lookup name flags attr = .ok (id, s')) : Keeps s s' := by
  unfold St.lookup at h
  split at h
  · split_ifs at h
    cases h
    exact .refl s
  · split_ifs at h
    split at h
    · cases h
    · rename_i maxMsg msgSize _
      split_ifs at h with hbad
      cases h
      refine ⟨fun id q hq ↦ ?_, Nat.le_succ _, rfl, rfl, rfl⟩
      change update s.queues s.next _ id = some q at hq
      by_cases heq : id = s.next
      · subst heq
        rw [update_self, some.injEq] at hq
        subst hq
        exact .inr ⟨rfl, Nat.lt_succ_self _, rfl, by dsimp only; omega⟩
      · rw [update_of_ne heq] at hq
        exact .inl ⟨q, hq, rfl, rfl⟩

theorem mqOpen_keeps (s : St) (name : Except Errno (List UInt8)) (flags : Nat)
    (attr : Option (Option (Int × Int))) (room : Except Errno Unit) (fd : Nat) :
    Keeps s (s.mqOpen name flags attr room fd) := by
  unfold St.mqOpen
  split
  · split
    · exact .refl s
    · split
      · exact .refl s
      · rename_i id s' hlookup
        have hkeeps := lookup_keeps hlookup
        split
        · rename_i q hq
          have hput : Keeps s (s'.put id { q with openCount := q.openCount + 1 }) :=
            hkeeps.put hq rfl rfl
          exact hput.rename _ _ _
        · exact hkeeps.rename _ _ _
  · exact .refl s

theorem forget_eq (q : MessageQueue) (realFd : Nat) :
    (q.forget realFd).messages = q.messages ∧ (q.forget realFd).maxMsg = q.maxMsg ∧
      (q.forget realFd).unlinked = q.unlinked := by
  unfold MessageQueue.forget
  split <;> exact ⟨rfl, rfl, rfl⟩

theorem mqClose_keeps (s : St) (realFd : Nat) : Keeps s (s.mqClose realFd) := by
  unfold St.mqClose
  split
  · exact .refl s
  · dsimp only
    split
    · exact .of_eq rfl rfl rfl rfl rfl
    · rename_i q hq
      have hgone : Keeps s { s with ends := update s.ends realFd none } :=
        .of_eq rfl rfl rfl rfl rfl
      split
      · exact hgone.remove _
      · exact hgone.put hq (forget_eq q realFd).1 (forget_eq q realFd).2.1

theorem mqUnlink_keeps (s : St) (name : Except Errno (List UInt8)) : Keeps s (s.mqUnlink name) := by
  unfold St.mqUnlink
  split
  · exact .refl s
  · rename_i name
    split
    · exact .refl s
    · have hgone : Keeps s { s with names := update s.names name none } :=
        .of_eq rfl rfl rfl rfl rfl
      dsimp only
      split
      · exact hgone
      · rename_i q hq
        split
        · exact hgone.remove _
        · exact hgone.put hq rfl rfl

theorem mqNotify_keeps (s : St) (pid : Pid) (realFd : Option Nat) (sev : Option Sigevent) :
    Keeps s (s.mqNotify pid realFd sev) := by
  unfold St.mqNotify
  split
  · exact .refl s
  · rename_i fd id q hfound
    obtain ⟨fd', -, hfound⟩ := bind_eq_some_iff.1 hfound
    obtain ⟨mqEnd, -, hfound⟩ := bind_eq_some_iff.1 hfound
    obtain ⟨q', hq, heq⟩ := map_eq_some_iff.1 hfound
    cases heq
    split
    · exact (Keeps.refl s).put hq (forget_eq ..).1 (forget_eq ..).2.1
    · split
      · exact .refl s
      · split
        · exact .refl s
        · exact .refl s
        · exact (Keeps.refl s).put hq rfl rfl
        · split
          · exact .refl s
          · exact (Keeps.refl s).put hq rfl rfl

/-- What an event that runs no turn does. -/
inductive Quiet (s s' : St) : Prop
  | keeps (h : Keeps s s')
  | leave (pid : Pid)
      (h : s' = { s with
        table := s.table.erase pid
        asleep := update s.asleep pid none
        calls := update s.calls pid none })
  | rouse (pid : Pid) (h : s' = { s with asleep := update s.asleep pid none })

theorem step_quiet (hturn : turnOf s e = none) (h : s.step e = some s') : Quiet s s' := by
  cases e with
  | spawn pid =>
    cases h
    exact .keeps (.of_eq rfl rfl rfl rfl rfl)
  | mqOpen name flags attr room fd =>
    rw [St.step] at h
    split_ifs at h
    cases h
    exact .keeps (mqOpen_keeps ..)
  | mqClose fd =>
    cases h
    exact .keeps (mqClose_keeps ..)
  | mqUnlink name =>
    cases h
    exact .keeps (mqUnlink_keeps ..)
  | mqTimedsend pid realFd len prio deadline text env =>
    rw [turnOf] at hturn
    rw [St.step] at h
    split_ifs at h
    split at hturn
    · cases hturn
    · rename_i e he
      rw [he] at h
      cases h
      exact .keeps (.refl _)
  | mqTimedreceive pid realFd len env =>
    rw [turnOf] at hturn
    rw [St.step] at h
    split_ifs at h
    split at hturn
    · cases hturn
    · rename_i e he
      rw [he] at h
      cases h
      exact .keeps (.refl _)
  | mqNotify pid realFd sev =>
    rw [St.step] at h
    split_ifs at h
    cases h
    exact .keeps (mqNotify_keeps ..)
  | resume pid env =>
    rw [St.step] at h
    split_ifs at h
    obtain ⟨c, hc, -⟩ := map_eq_some_iff.1 h
    rw [turnOf, hc] at hturn
    cases hturn
  | leave pid =>
    cases h
    exact .leave pid rfl
  | rouse pid =>
    cases h
    exact .rouse pid rfl

theorem step_takesFirst (hbounded : ∀ id q, s.queues id = some q → id < s.next)
    (h : s.step e = some s') : TakesFirst s e s' := by
  have hsame : s'.queues = s.queues → TakesFirst s e s' := by
    intro heq id q q' hq hq'
    rw [heq, hq, some.injEq] at hq'
    exact .inl (hq' ▸ rfl)
  cases hturn : turnOf s e with
  | some pce =>
    obtain ⟨pid, c, env⟩ := pce
    cases (step_turn hturn h).2 with
    | pushed c h =>
      obtain ⟨q₀, q₁, hq₀, -, hqueues, -, hmessages⟩ := h.queue
      intro id q q' hq hq'
      rw [hqueues] at hq'
      by_cases heq : id = c.mqId
      · subst heq
        rw [update_self, some.injEq] at hq'
        rw [hq₀, some.injEq] at hq
        subst hq hq'
        exact .inr (.inl ⟨pid, c, env, _, hturn, rfl, hmessages⟩)
      · rw [update_of_ne heq, hq, some.injEq] at hq'
        exact .inl (hq' ▸ rfl)
    | taken c h =>
      obtain ⟨q₀, q₁, m, hq₀, hqueues, -, hmessages⟩ := h.queue
      intro id q q' hq hq'
      rw [hqueues] at hq'
      by_cases heq : id = c.mqId
      · subst heq
        rw [update_self, some.injEq] at hq'
        rw [hq₀, some.injEq] at hq
        subst hq hq'
        exact .inr (.inr ⟨pid, c, env, m, hturn, rfl, hmessages⟩)
      · rw [update_of_ne heq, hq, some.injEq] at hq'
        exact .inl (hq' ▸ rfl)
    | slept c h => exact hsame h.same.queues
    | refused c h => exact hsame h.same.queues
  | none =>
    cases step_quiet hturn h with
    | keeps hkeeps =>
      intro id q q' hq hq'
      rcases hkeeps.queues id q' hq' with ⟨q₀, hq₀, hmessages, -⟩ | ⟨rfl, -⟩
      · rw [hq, some.injEq] at hq₀
        exact .inl (hq₀ ▸ hmessages)
      · exact absurd (hbounded _ q hq) (Nat.lt_irrefl _)
    | leave pid h => exact hsame (by rw [h])
    | rouse pid h => exact hsame (by rw [h])

/-! ## Order -/

/-- What holds of every run: ids are not used twice, the queues are in order, and the messages of a
queue have smaller numbers than the next will get. -/
structure Books (s : St) : Prop where
  bounded : ∀ id q, s.queues id = some q → id < s.next
  ordered : Ordered s
  numbered : ∀ id q, s.queues id = some q → ∀ m ∈ q.messages, m.no < s.count id

theorem books_init : Books St.init :=
  ⟨fun _ _ h ↦ (by cases h), fun _ _ h ↦ (by cases h), fun _ _ h ↦ (by cases h)⟩

theorem Pushed.books {c : SendCall} (h : Pushed s s' pid c) (hs : Books s) : Books s' := by
  obtain ⟨q₀, q₁, hq₀, hroom, hqueues, hmax, hmessages⟩ := h.queue
  have hcases : ∀ id q, s'.queues id = some q →
      (id = c.mqId ∧ q = q₁) ∨ (id ≠ c.mqId ∧ s.queues id = some q) := by
    intro id q hq
    rw [hqueues] at hq
    by_cases heq : id = c.mqId
    · subst heq
      rw [update_self, some.injEq] at hq
      exact .inl ⟨rfl, hq.symm⟩
    · rw [update_of_ne heq] at hq
      exact .inr ⟨heq, hq⟩
  refine ⟨fun id q hq ↦ ?_, fun id q hq ↦ ?_, fun id q hq ↦ ?_⟩
  · rw [h.next]
    rcases hcases id q hq with ⟨rfl, rfl⟩ | ⟨-, hq⟩
    · exact hs.bounded _ q₀ hq₀
    · exact hs.bounded id q hq
  · rcases hcases id q hq with ⟨rfl, rfl⟩ | ⟨-, hq⟩
    · rw [hmessages, insertByPriority_length]
      refine ⟨by omega, ?_⟩
      exact pairwise_insertByPriority (hs.ordered _ q₀ hq₀).2 (hs.numbered _ q₀ hq₀)
    · exact hs.ordered id q hq
  · rw [h.count]
    rcases hcases id q hq with ⟨rfl, rfl⟩ | ⟨hne, hq⟩
    · intro m hm
      rw [update_self]
      rw [hmessages] at hm
      rcases mem_insertByPriority.1 hm with rfl | hm
      · exact Nat.lt_succ_self _
      · exact Nat.lt_succ_of_lt (hs.numbered _ q₀ hq₀ m hm)
    · rw [update_of_ne hne]
      exact hs.numbered id q hq

/-- Queues that lose messages, or none, keep their order. -/
theorem Books.of_sublist (hs : Books s) (hnext : s.next ≤ s'.next) (hcount : s'.count = s.count)
    (h : ∀ id q', s'.queues id = some q' →
      (∃ q, s.queues id = some q ∧ q'.messages.Sublist q.messages ∧ q'.maxMsg = q.maxMsg) ∨
      (id < s'.next ∧ q'.messages = [] ∧ 0 < q'.maxMsg)) : Books s' := by
  refine ⟨fun id q' hq' ↦ ?_, fun id q' hq' ↦ ?_, fun id q' hq' m hm ↦ ?_⟩
  · rcases h id q' hq' with ⟨q, hq, -⟩ | ⟨hlt, -⟩
    · exact Nat.lt_of_lt_of_le (hs.bounded id q hq) hnext
    · exact hlt
  · rcases h id q' hq' with ⟨q, hq, hsub, hmax⟩ | ⟨-, hempty, hpos⟩
    · obtain ⟨hle, hpair⟩ := hs.ordered id q hq
      have := hsub.length_le
      exact ⟨by omega, hpair.sublist hsub⟩
    · rw [hempty]
      exact ⟨Int.le_of_lt hpos, Pairwise.nil⟩
  · rw [hcount]
    rcases h id q' hq' with ⟨q, hq, hsub, -⟩ | ⟨-, hempty, -⟩
    · exact hs.numbered id q hq m (hsub.subset hm)
    · rw [hempty] at hm
      cases hm

theorem Turn.books {c : Call} (h : Turn s s' pid env c) (hs : Books s) : Books s' := by
  have hsame : Same s s' → Books s' := by
    intro h
    refine hs.of_sublist (Nat.le_of_eq h.next.symm) h.count fun id q' hq' ↦ ?_
    exact .inl ⟨q', h.queues ▸ hq', Sublist.refl _, rfl⟩
  cases h with
  | pushed c h => exact h.books hs
  | taken c h =>
    obtain ⟨q₀, q₁, m, hq₀, hqueues, hmax, hmessages⟩ := h.queue
    refine hs.of_sublist (Nat.le_of_eq h.next.symm) h.count fun id q' hq' ↦ .inl ?_
    rw [hqueues] at hq'
    by_cases heq : id = c.mqId
    · subst heq
      rw [update_self, some.injEq] at hq'
      subst hq'
      exact ⟨q₀, hq₀, by rw [hmessages]; exact sublist_cons_self _ _, hmax⟩
    · rw [update_of_ne heq] at hq'
      exact ⟨q', hq', Sublist.refl _, rfl⟩
  | slept c h => exact hsame h.same
  | refused c h => exact hsame h.same

theorem Quiet.books (h : Quiet s s') (hs : Books s) : Books s' := by
  cases h with
  | keeps h =>
    refine hs.of_sublist h.next h.count fun id q' hq' ↦ ?_
    rcases h.queues id q' hq' with ⟨q, hq, hmessages, hmax⟩ | ⟨-, hnew⟩
    · exact .inl ⟨q, hq, hmessages ▸ Sublist.refl _, hmax⟩
    · exact .inr hnew
  | leave pid h =>
    subst h
    exact ⟨hs.bounded, hs.ordered, hs.numbered⟩
  | rouse pid h =>
    subst h
    exact ⟨hs.bounded, hs.ordered, hs.numbered⟩

theorem step_books (hs : Books s) (h : s.step e = some s') : Books s' := by
  cases hturn : turnOf s e with
  | some pce =>
    exact (step_turn hturn h).2.books hs
  | none => exact (step_quiet hturn h).books hs

end OxideBSD.Mq
