import OxideBSD.Kern.LocalFrame
import OxideBSD.Lib.Lists

/-!
# The rights in the queues of local sockets

A send takes a reference to every description its message carries, and three tables count what is in
flight: per description, per sending user, and in all.  A right leaves its queue when a receiver takes
the message, and when the queue is flushed: by `shutdown`, by the collector, by the close of its
socket, or by that of a listener that had not accepted the connection.

* `State.flying` lists the rights in queues, with the users they count for, and `Counts st l` says
  that the tables count the rights `l`.
* `Moves st st' n taken gone` says what an operation does to them: those of `taken` came and those of
  `gone` went, and the tables follow.
* `Releases st r n` is a `Moves` of an operation that hands back what went, to be released: `flush`,
  `flushAll` and `detach` are.
* `Reads queue data queue'` is what a stream's receive does to messages without control data.
-/

set_option autoImplicit false

namespace OxideBSD.Local

open Function List Option

/-! ## Rights in queues -/

/-- Rights with the users they count for. -/
abbrev Flights : Type := Multiset (UInt32 × Right)

/-- The rights of a message, with the user they count for. -/
def Msg.flights (m : Msg) : List (UInt32 × Right) := m.rights.map fun r ↦ (m.sender.euid, r)

def Unp.flights (u : Unp) : List (UInt32 × Right) := u.queue.flatMap Msg.flights

/-- The rights in the queue of `so`. -/
def State.flights (st : State) (so : Nat) : List (UInt32 × Right) :=
  (st.socks so).elim [] Unp.flights

/-- The rights in the queues of all sockets, which are below `n`. -/
def State.flying (st : State) (n : Nat) : List (UInt32 × Right) :=
  (List.range n).flatMap st.flights

/-- The tables count the rights `l`. -/
structure Counts (st : State) (l : Flights) : Prop where
  real : ∀ r, st.inflight r = l.countP fun x ↦ x.2.real = r
  uid : ∀ uid, st.inflightByUid uid = l.countP fun x ↦ x.1 = uid
  total : st.inflightTotal = l.card

section Tables

variable {st st' st'' : State} {l : Flights} {uid : UInt32} {rights : List Right}
  {n so : Nat} {u u' : Unp} {data : List UInt8} {sender : Cred} {control : Option Control} {m : Msg}

/-- The rights of a message from `uid`. -/
def sentBy (uid : UInt32) (rights : List Right) : List (UInt32 × Right) :=
  rights.map fun r ↦ (uid, r)

theorem countP_real_sentBy (uid : UInt32) (rights : List Right) (r : Nat) :
    (sentBy uid rights : Flights).countP (fun x ↦ x.2.real = r)
      = rights.countP (·.real = r) := by
  rw [sentBy, Multiset.coe_countP, countP_map]
  rfl

theorem countP_uid_sentBy (uid uid' : UInt32) (rights : List Right) :
    (sentBy uid rights : Flights).countP (fun x ↦ x.1 = uid')
      = if uid' = uid then rights.length else 0 := by
  rw [sentBy, Multiset.coe_countP, countP_map]
  split_ifs with huid
  · subst huid
    exact countP_eq_length.2 fun r _ ↦ by simp
  · exact countP_eq_zero.2 fun r _ ↦ by simp [Ne.symm huid]

theorem Counts.put (h : Counts st (l + sentBy uid rights)) :
    Counts (st.putInflight uid rights) l := by
  refine ⟨fun r ↦ ?_, fun uid' ↦ ?_, ?_⟩
  · have hreal := h.real r
    rw [Multiset.countP_add, countP_real_sentBy] at hreal
    simp [State.putInflight, hreal]
  · have huid := h.uid uid'
    rw [Multiset.countP_add, countP_uid_sentBy] at huid
    by_cases heq : uid' = uid
    · subst heq
      simp [State.putInflight, huid]
    · simp only [heq] at huid
      simp [State.putInflight, heq, huid]
  · have htotal := h.total
    simp only [sentBy] at htotal
    simp [State.putInflight, htotal]

/-- Messages are discarded: their rights are no longer counted, and are those to release. -/
theorem Counts.discard {msgs : List Msg} (h : Counts st (l + msgs.flatMap Msg.flights)) :
    Counts (st.discard msgs).1 l := by
  induction msgs generalizing st with
  | nil =>
    rw [flatMap_nil, Multiset.coe_nil, add_zero] at h
    exact h
  | cons m msgs ih =>
    have hsplit : l + ((m :: msgs).flatMap Msg.flights : Flights) =
        l + (msgs.flatMap Msg.flights : Flights) +
          (m.flights : Flights) := by
      ac_rfl
    rw [hsplit] at h
    rw [State.discard]
    split_ifs with hrights
    · refine ih ?_
      rwa [Msg.flights, hrights, map_nil, Multiset.coe_nil, add_zero] at h
    · exact ih h.put

theorem discard_rights (st : State) (msgs : List Msg) :
    (st.discard msgs).2 = (msgs.flatMap Msg.flights).map Prod.snd := by
  induction msgs generalizing st with
  | nil => rfl
  | cons m msgs ih =>
    rw [State.discard, flatMap_cons, map_append]
    rw [ih, Msg.flights, List.map_map]
    exact congrArg (· ++ _) (map_id' _).symm

theorem discard_socks (st : State) (msgs : List Msg) : (st.discard msgs).1.socks = st.socks := by
  induction msgs generalizing st with
  | nil => rfl
  | cons m msgs ih =>
    rw [State.discard]
    rw [ih]
    split_ifs <;> rfl

theorem flights_eq (st : State) (so : Nat) :
    st.flights so = ((st.socks so).map Unp.flights).getD [] := by
  rw [State.flights]
  cases st.socks so <;> rfl

/-- The control block of one socket changes. -/
theorem flying_set (hso : so < n) (st : State) (u : Unp) :
    ((st.set so u).flying n : Flights) + (st.flights so : Flights)
      = (st.flying n : Flights) + (u.flights : Flights) := by
  have hset : (st.set so u).flights so = u.flights := by
    simp [State.flights, State.set]
  rw [← hset]
  refine coe_flatMap_range_update hso fun i hi ↦ ?_
  simp [State.flights, State.set, hi]

/-- A socket goes. -/
theorem flying_erase (hso : so < n) (st : State) :
    (State.flying { st with socks := update st.socks so none } n :
      Flights) + (st.flights so : Flights) = (st.flying n : Flights) := by
  have hset : State.flights { st with socks := update st.socks so none } so = [] := by
    simp [State.flights]
  have hupdate := coe_flatMap_range_update (f := st.flights)
    (g := State.flights { st with socks := update st.socks so none }) hso fun i hi ↦ by
      simp [State.flights, hi]
  rwa [hset, Multiset.coe_nil, add_zero] at hupdate

theorem flying_congr (h : st'.socks = st.socks) (n : Nat) : st'.flying n = st.flying n := by
  rw [State.flying]
  congr 1
  funext so
  rw [State.flights, State.flights, h]

/-- What an operation does: the rights `taken` come into queues, the rights `gone` leave them, no
socket is new, and the tables count what is in the queues if they did. -/
structure Moves (st st' : State) (n : Nat) (taken gone : Flights) : Prop where
  flying : (st'.flying n : Flights) + gone = st.flying n + taken
  counts : Counts st (st.flying n) → Counts st' (st'.flying n)
  socks : ∀ so, (st'.socks so).isSome → (st.socks so).isSome

/-- Every socket is below `n`. -/
def State.Below (st : State) (n : Nat) : Prop := ∀ so, (st.socks so).isSome → so < n

theorem Moves.refl (st : State) (n : Nat) : Moves st st n 0 0 := ⟨rfl, id, fun _ ↦ id⟩

theorem Moves.below {taken gone : Flights} (h : Moves st st' n taken gone)
    (hn : st.Below n) : st'.Below n :=
  fun so hso ↦ hn so (h.socks so hso)

theorem Moves.trans {t t' g g' : Flights} (h : Moves st st' n t g)
    (h' : Moves st' st'' n t' g') : Moves st st'' n (t + t') (g + g') := by
  refine ⟨?_, fun hcounts ↦ h'.counts (h.counts hcounts), fun so hso ↦ h.socks so (h'.socks so hso)⟩
  calc (st''.flying n : Flights) + (g + g')
      = (st''.flying n + g') + g := by ac_rfl
    _ = (st'.flying n + g) + t' := by rw [h'.flying]; ac_rfl
    _ = st.flying n + (t + t') := by rw [h.flying]; ac_rfl

/-- An operation that neither changes the rights in a queue nor the tables. -/
theorem Moves.same (n : Nat)
    (hsocks : ∀ so, (st'.socks so).map Unp.flights = (st.socks so).map Unp.flights)
    (hreal : st'.inflight = st.inflight) (huid : st'.inflightByUid = st.inflightByUid)
    (htotal : st'.inflightTotal = st.inflightTotal) : Moves st st' n 0 0 := by
  have hflying : st'.flying n = st.flying n := by
    rw [State.flying]
    congr 1
    funext so
    rw [flights_eq, flights_eq, hsocks]
  refine ⟨by rw [hflying], fun hcounts ↦ ?_, fun so hso ↦ ?_⟩
  · rw [hflying]
    exact ⟨hreal ▸ hcounts.real, huid ▸ hcounts.uid, htotal ▸ hcounts.total⟩
  · have hisSome := congrArg isSome (hsocks so)
    rw [isSome_map, isSome_map] at hisSome
    rwa [← hisSome]

/-- An operation on other fields than the queue. -/
theorem Moves.of_frame (h : Frame Unp.core st st') (n : Nat) : Moves st st' n 0 0 := by
  refine .same n (h.comp fun c ↦ c.2.2.1.flatMap Msg.flights).socks ?_ ?_ ?_ <;> rw [h.tables]

theorem flights_of_some (hu : st.socks so = some u) : st.flights so = u.flights := by
  rw [State.flights, hu]
  rfl

theorem State.Below.lt (hn : st.Below n) (hu : st.socks so = some u) : so < n :=
  hn so (by rw [hu]; rfl)

theorem isSome_of_set (hu : st.socks so = some u) (u' : Unp) (so' : Nat) :
    ((st.set so u').socks so').isSome → (st.socks so').isSome := by
  by_cases hso : so' = so
  · subst hso
    simp [hu]
  · simp [State.set, hso]

/-- The tables are not looked at by a change of control blocks. -/
theorem Counts.of_tables (h : Counts st l) (htables : st' = { st with socks := st'.socks }) :
    Counts st' l := by
  obtain ⟨hreal, huid, htotal⟩ := h
  rw [htables]
  exact ⟨hreal, huid, htotal⟩

/-- Messages are taken out of the queue of `so` and discarded. -/
theorem Moves.discard (hn : st.Below n) (hu : st.socks so = some u) {msgs : List Msg}
    (hflights : (u'.flights : Flights) + (msgs.flatMap Msg.flights : Flights)
      = u.flights) :
    Moves st ((st.set so u').discard msgs).1 n 0 (msgs.flatMap Msg.flights : Flights) := by
  have hsocks := discard_socks (st.set so u') msgs
  have hflying : ((st.set so u').flying n : Flights)
      + (msgs.flatMap Msg.flights : Flights) = st.flying n := by
    have hset := flying_set (hn.lt hu) st u'
    rw [flights_of_some hu, ← hflights, add_comm (u'.flights : Flights),
      ← add_assoc] at hset
    exact add_right_cancel hset
  refine ⟨by rw [flying_congr hsocks, hflying, add_zero], fun hcounts ↦ ?_, fun so' hso' ↦ ?_⟩
  · rw [flying_congr hsocks]
    refine Counts.discard ?_
    rw [hflying]
    exact hcounts.of_tables rfl
  · rw [hsocks] at hso'
    exact isSome_of_set hu u' so' hso'

/-- A socket goes, and with it its messages. -/
theorem Moves.erase (hn : st.Below n) (hu : st.socks so = some u) :
    Moves st ({ st with socks := update st.socks so none }.discard u.queue).1 n 0
      (u.flights : Flights) := by
  have hsocks := discard_socks { st with socks := update st.socks so none } u.queue
  have hflying := flying_erase (hn.lt hu) st
  rw [flights_of_some hu] at hflying
  refine ⟨by rw [flying_congr hsocks, hflying, add_zero], fun hcounts ↦ ?_, fun so' hso' ↦ ?_⟩
  · rw [flying_congr hsocks]
    refine Counts.discard ?_
    have hqueue : (u.queue.flatMap Msg.flights : Flights) = u.flights := rfl
    rw [hqueue, hflying]
    exact hcounts.of_tables rfl
  · rw [hsocks] at hso'
    by_cases heq : so' = so
    · simp [heq] at hso'
    · simpa [heq] using hso'

/-- The result of an operation that takes rights out of queues: `gone`, to be released. -/
def Releases (st : State) (r : State × List Right) (n : Nat) : Prop :=
  ∃ gone : List (UInt32 × Right), Moves st r.1 n 0 gone ∧ r.2 = gone.map Prod.snd

theorem releases_flush (hn : st.Below n) (so : Nat) : Releases st (st.flush so) n := by
  rw [State.flush]
  split
  · exact ⟨[], .refl st n, rfl⟩
  next u hu =>
    refine ⟨u.queue.flatMap Msg.flights, .discard hn hu ?_, discard_rights _ _⟩
    simp [Unp.flights]

theorem releases_flushAll (hn : st.Below n) (garbage : List Nat) :
    Releases st (st.flushAll garbage) n := by
  induction garbage generalizing st with
  | nil => exact ⟨[], .refl st n, rfl⟩
  | cons so garbage ih =>
    obtain ⟨gone, hmoves, hrights⟩ := releases_flush hn so
    obtain ⟨gone', hmoves', hrights'⟩ := ih (hmoves.below hn)
    refine ⟨gone ++ gone', ?_, ?_⟩
    · have htrans := hmoves.trans hmoves'
      exact htrans
    · rw [State.flushAll, map_append, hrights, hrights']

/-! ### Receives -/

/-- What a stream's receive does to messages without control data: `data` is read off the queue,
some messages to their end and one maybe in part. -/
inductive Reads : List Msg → List UInt8 → List Msg → Prop
  | stop (queue : List Msg) : Reads queue [] queue
  | part {m : Msg} {queue : List Msg} {k : Nat} (hcontrol : m.control = none) (hk : k < m.left) :
      Reads (m :: queue) (m.unread.take k) ({ m with off := m.off + k } :: queue)
  | whole {m : Msg} {queue queue' : List Msg} {data : List UInt8} (hcontrol : m.control = none)
      (h : Reads queue data queue') : Reads (m :: queue) (m.unread ++ data) queue'

theorem takeMore_zero (queue : List Msg) : takeMore 0 queue = [] := by
  cases queue <;> simp [takeMore]

theorem length_unread (m : Msg) : m.unread.length = m.left := by
  rw [Msg.unread, length_drop, Msg.left]

theorem left_read (m : Msg) (k : Nat) : Msg.left { m with off := m.off + k } = m.left - k := by
  simp only [Msg.left]
  omega

/-- The messages behind the first one. -/
theorem reads_takeMore (room : Nat) (queue : List Msg) :
    Reads queue (takeMore room queue) (consume (takeMore room queue).length queue) := by
  induction queue generalizing room with
  | nil => exact .stop []
  | cons next queue ih =>
    by_cases hstop : room = 0 ∨ next.control.isSome
    · rw [takeMore, if_pos hstop]
      exact .stop _
    have htake : takeMore room (next :: queue)
        = next.unread.take (min next.left room)
          ++ takeMore (room - min next.left room) queue := by
      rw [takeMore, if_neg hstop]
    obtain ⟨hroom, hcontrol⟩ := not_or.1 hstop
    have hnone := not_isSome_iff_eq_none.1 hcontrol
    have hlength := length_unread next
    rcases Nat.lt_or_ge room next.left with hpart | hwhole
    · -- the room ends inside the message
      have htail : takeMore (room - min next.left room) queue = [] := by
        rw [Nat.min_eq_right hpart.le, Nat.sub_self, takeMore_zero]
      rw [htake, htail, append_nil, Nat.min_eq_right hpart.le, length_take, hlength,
        Nat.min_eq_left hpart.le, consume, if_neg hroom]
      dsimp only
      rw [Nat.min_eq_right hpart.le, left_read, if_neg (by omega)]
      exact .part hnone hpart
    · rw [htake, Nat.min_eq_left hwhole, take_of_length_le hlength.le, length_append,
        hlength, consume]
      by_cases hzero : next.left + (takeMore (room - next.left) queue).length = 0
      · -- there is nothing to read, and the queue stays
        have hunread := length_eq_zero_iff.1 (hlength.trans (by omega))
        have hmore := length_eq_zero_iff.1
          (by omega : (takeMore (room - next.left) queue).length = 0)
        rw [if_pos hzero, hunread, hmore]
        exact .stop _
      · rw [if_neg hzero]
        dsimp only
        rw [Nat.min_eq_left (Nat.le_add_right _ _), left_read, if_pos (Nat.sub_self _),
          Nat.add_sub_cancel_left]
        exact .whole hnone (ih _)

/-- A receive from a stream whose first message has no control data any more. -/
theorem reads_readStream (hm : m.control = none) (queue : List Msg) (len : Nat) :
    Reads (m :: queue) (Unp.readStream m queue len false).1
      (Unp.readStream m queue len false).2 := by
  have hlength := length_unread m
  rw [Unp.readStream]
  rw [if_neg Bool.false_ne_true]
  dsimp only
  rw [left_read]
  rcases Nat.lt_or_ge len m.left with hpart | hwhole
  · rw [Nat.min_eq_right hpart.le, Nat.sub_self, takeMore_zero, append_nil, length_nil,
      if_pos (by omega)]
    have hconsume : consume 0 queue = queue := by
      cases queue <;> simp [consume]
    rw [hconsume]
    exact .part hm hpart
  · rw [Nat.min_eq_left hwhole, Nat.sub_self,
      take_of_length_le hlength.le]
    exact .whole hm (reads_takeMore _ _)

/-! ### The other operations -/

theorem releases_resetPending (hn : st.Below n) (pending : List Nat) :
    Releases st (st.resetPending pending) n := by
  induction pending generalizing st with
  | nil => exact ⟨[], .refl st n, rfl⟩
  | cons conn pending ih =>
    rw [State.resetPending]
    split
    · exact ih hn
    next c hc =>
      have herase := Moves.erase hn hc
      have hreset := herase.trans (.of_frame (frame_resetClient _ c.peer) n)
      obtain ⟨gone, hmoves, hrights⟩ := ih (hreset.below hn)
      refine ⟨c.flights ++ gone, ?_, ?_⟩
      · have htrans := hreset.trans hmoves
        simp only [add_zero] at htrans
        exact htrans
      · dsimp only
        rw [hrights, discard_rights, map_append]
        rfl

theorem socks_unbind (st : State) (u : Unp) : (st.unbind u).socks = st.socks := by
  rw [State.unbind]
  split
  · rfl
  · split <;> rfl
  · rfl

theorem Moves.unbind (st : State) (u : Unp) (n : Nat) : Moves st (st.unbind u) n 0 0 := by
  refine .same n (fun so ↦ by rw [socks_unbind]) ?_ ?_ ?_
  all_goals
    rw [State.unbind]
    split
    · rfl
    · split <;> rfl
    · rfl

/-- A socket is closed: its messages and those of connections it had not accepted go. -/
theorem releases_detach (hn : st.Below n) (so : Nat) :
    Releases st ((st.detach so).1, (st.detach so).2.1) n := by
  rw [State.detach]
  split
  · exact ⟨[], .refl st n, rfl⟩
  next u hu =>
    have hunbind := (Moves.erase hn hu).trans (.unbind _ u n)
    obtain ⟨gone, hmoves, hrights⟩ := releases_resetPending (hunbind.below hn) u.pending
    have htell := (hunbind.trans hmoves).trans (.of_frame (frame_tellPeer _ u) n)
    refine ⟨u.flights ++ gone, ?_, ?_⟩
    · simp only [add_zero] at htell
      exact htell
    · dsimp only
      rw [hrights, discard_rights, map_append]
      rfl

end Tables

end OxideBSD.Local
