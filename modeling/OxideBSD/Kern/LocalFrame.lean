import OxideBSD.Kern.Local

/-!
# What the operations of local sockets leave alone

`Frame π st st'` says that the operation from `st` to `st'` changed the control blocks only, no
socket came or went, and of every control block the part `π` is as it was.  Most operations change
flags or credentials: they keep the `core` of every control block, its name, its queue and the
connections it has not accepted.
-/

set_option autoImplicit false

namespace OxideBSD.Local

open Option

/-- The parts of a control block that say what it is called and what is inside it. -/
def Unp.core (u : Unp) : Option Name × Option Nat × List Msg × List Nat :=
  (u.name, u.node, u.queue, u.pending)

/-- Only control blocks change, and of each of them the part `π` stays. -/
structure Frame {β : Type} (π : Unp → β) (st st' : State) : Prop where
  socks : ∀ so, (st'.socks so).map π = (st.socks so).map π
  tables : st' = { st with socks := st'.socks }

namespace Frame

variable {β γ : Type} {π : Unp → β} {st st' st'' : State} {so : Nat} {u u' : Unp}

theorem refl (π : Unp → β) (st : State) : Frame π st st := ⟨fun _ ↦ rfl, rfl⟩

theorem trans (h : Frame π st st') (h' : Frame π st' st'') : Frame π st st'' := by
  refine ⟨fun so ↦ (h'.socks so).trans (h.socks so), ?_⟩
  rw [h'.tables, h.tables]

/-- A part of what stays stays. -/
theorem comp (h : Frame π st st') (f : β → γ) : Frame (f ∘ π) st st' := by
  refine ⟨fun so ↦ ?_, h.tables⟩
  rw [← map_map, ← map_map, h.socks so]

theorem set (hu : st.socks so = some u) (h : π u' = π u) : Frame π st (st.set so u') := by
  refine ⟨fun so' ↦ ?_, rfl⟩
  by_cases hso : so' = so
  · subst hso
    simp [State.set, hu, h]
  · simp [State.set, hso]

end Frame

section Core

variable {st : State} {so : Nat} {u : Unp} {cred : Cred}

theorem frame_pairOne (st : State) (me other : Nat) (cred : Cred) :
    Frame Unp.core st (st.pairOne me other cred) := by
  rw [State.pairOne]
  split
  · exact .refl _ _
  next hu => exact .set hu rfl

theorem frame_pair (st : State) (a b : Nat) (cred : Cred) :
    Frame Unp.core st (st.pair a b cred) :=
  (frame_pairOne st a b cred).trans (frame_pairOne _ b a cred)

/-- The socket looked up is there. -/
theorem socks_of_bind {peer : Option Nat} {p : Nat} {v : Unp}
    (h : (peer.bind fun p ↦ (st.socks p).map fun v ↦ (p, v)) = some (p, v)) :
    st.socks p = some v := by
  simp only [bind_eq_some_iff, map_eq_some_iff] at h
  obtain ⟨p', _, v', hv', rfl, rfl⟩ := h
  exact hv'

theorem frame_resetClient (st : State) (client : Option Nat) :
    Frame Unp.core st (st.resetClient client) := by
  rw [State.resetClient]
  split
  · exact .refl _ _
  next h => exact .set (socks_of_bind h) rfl

theorem frame_tellPeer (st : State) (u : Unp) : Frame Unp.core st (st.tellPeer u) := by
  rw [State.tellPeer]
  split_ifs
  · split
    · exact .refl _ _
    next h => exact .set (socks_of_bind h) rfl
  · exact .refl _ _

theorem frame_shutPeer (st : State) (u : Unp) : Frame Unp.core st (st.shutPeer u) := by
  rw [State.shutPeer]
  split_ifs
  · split
    · exact .refl _ _
    next h => exact .set (socks_of_bind h) rfl
  · exact .refl _ _

/-- The second half of `shutdown`. -/
theorem frame_shutWrite (st : State) (so : Nat) :
    Frame Unp.core st (match st.socks so with
      | none => st
      | some u => (st.set so { u with wrShut := true }).shutPeer u) := by
  split
  · exact .refl _ st
  next hu =>
    refine Frame.trans ?_ (frame_shutPeer _ _)
    exact .set hu rfl

theorem frame_listen (st : State) (so : Nat) (ty : SockType) (backlog : Int) (cred : Cred) :
    Frame Unp.core st (st.listen so ty backlog cred).2 := by
  rw [State.listen]
  split_ifs
  · split
    · exact .refl _ _
    next hu =>
      split_ifs
      · exact .refl _ _
      · exact .set hu rfl
  · exact .refl _ _

theorem frame_disconnect (st : State) (so : Nat) : Frame Unp.core st (st.disconnect so).2 := by
  rw [State.disconnect]
  split
  · exact .refl _ _
  next hu => exact .set hu rfl

theorem frame_setPasscred (st : State) (so : Nat) (on : Bool) :
    Frame Unp.core st (st.setPasscred so on).2 := by
  rw [State.setPasscred]
  split
  · exact .refl _ _
  next hu => exact .set hu rfl

theorem frame_setLocalCreds (st : State) (so : Nat) (want : LocalCreds) (on : Bool) :
    Frame Unp.core st (st.setLocalCreds so want on).2 := by
  rw [State.setLocalCreds]
  split
  · exact .refl _ _
  next hu =>
    split_ifs
    · exact .refl _ _
    · exact .set hu rfl
    · exact .set hu rfl
    · exact .refl _ _

end Core

/-! ## Names -/

/-- The name tables stay, and every socket there is was there before, with the same name. -/
structure Names (st st' : State) : Prop where
  abstractNames : st'.abstractNames = st.abstractNames
  nodes : st'.nodes = st.nodes
  socks : ∀ so u', st'.socks so = some u' →
    ∃ u, st.socks so = some u ∧ u'.name = u.name ∧ u'.node = u.node

namespace Names

variable {st st' st'' : State} {so : Nat} {u u' : Unp}

theorem refl (st : State) : Names st st := ⟨rfl, rfl, fun _ u hu ↦ ⟨u, hu, rfl, rfl⟩⟩

theorem trans (h : Names st st') (h' : Names st' st'') : Names st st'' := by
  refine ⟨h'.abstractNames.trans h.abstractNames, h'.nodes.trans h.nodes, fun so u'' hu'' ↦ ?_⟩
  obtain ⟨u', hu', hname', hnode'⟩ := h'.socks so u'' hu''
  obtain ⟨u, hu, hname, hnode⟩ := h.socks so u' hu'
  exact ⟨u, hu, hname'.trans hname, hnode'.trans hnode⟩

theorem of_frame (h : Frame Unp.core st st') : Names st st' := by
  refine ⟨by rw [h.tables], by rw [h.tables], fun so u' hu' ↦ ?_⟩
  have hso := h.socks so
  rw [hu', map_some, eq_comm, map_eq_some_iff] at hso
  obtain ⟨u, hu, hcore⟩ := hso
  simp only [Unp.core, Prod.mk.injEq] at hcore
  exact ⟨u, hu, hcore.1.symm, hcore.2.1.symm⟩

theorem set (hu : st.socks so = some u) (hname : u'.name = u.name) (hnode : u'.node = u.node) :
    Names st (st.set so u') := by
  refine ⟨rfl, rfl, fun so' v hv ↦ ?_⟩
  by_cases hso : so' = so
  · subst hso
    simp only [State.set, Function.update_self, some.injEq] at hv
    exact ⟨u, hu, hv ▸ hname, hv ▸ hnode⟩
  · simp only [State.set, Function.update_of_ne hso] at hv
    exact ⟨v, hv, rfl, rfl⟩

/-- Two control blocks change, or one twice. -/
theorem set_set {so' : Nat} {v v' : Unp} (hu : st.socks so = some u) (hv : st.socks so' = some v)
    (hname : u'.name = u.name) (hnode : u'.node = u.node) (hname' : v'.name = v.name)
    (hnode' : v'.node = v.node) : Names st ((st.set so u').set so' v') := by
  refine (Names.set hu hname hnode).trans ?_
  by_cases heq : so' = so
  · subst heq
    cases hu.symm.trans hv
    exact .set (Function.update_self ..) (hname'.trans hname.symm) (hnode'.trans hnode.symm)
  · refine .set ?_ hname' hnode'
    simp only [State.set, Function.update_of_ne heq, hv]

/-- A socket goes. -/
theorem erase (st : State) (so : Nat) :
    Names st { st with socks := Function.update st.socks so none } := by
  refine ⟨rfl, rfl, fun so' v hv ↦ ?_⟩
  by_cases hso : so' = so
  · simp [hso] at hv
  · simp only [Function.update_of_ne hso] at hv
    exact ⟨v, hv, rfl, rfl⟩

end Names

theorem names_putInflight (st : State) (uid : UInt32) (rights : List Right) :
    Names st (st.putInflight uid rights) :=
  ⟨rfl, rfl, fun _ u hu ↦ ⟨u, hu, rfl, rfl⟩⟩

theorem names_takeInflight {st st' : State} {uid : UInt32} {rights : List Right}
    (h : st.takeInflight uid rights = .ok st') : Names st st' := by
  simp only [State.takeInflight] at h
  split_ifs at h
  cases h
  exact ⟨rfl, rfl, fun _ u hu ↦ ⟨u, hu, rfl, rfl⟩⟩

theorem names_discard (st : State) (msgs : List Msg) : Names st (st.discard msgs).1 := by
  induction msgs generalizing st with
  | nil => exact .refl st
  | cons m msgs ih =>
    rw [State.discard]
    split_ifs
    · exact ih st
    · exact (names_putInflight st _ _).trans (ih _)

theorem names_flush (st : State) (so : Nat) : Names st (st.flush so).1 := by
  rw [State.flush]
  split
  · exact .refl st
  next hu =>
    refine Names.trans ?_ (names_discard _ _)
    exact .set hu rfl rfl

theorem names_flushAll (st : State) (garbage : List Nat) : Names st (st.flushAll garbage).1 := by
  induction garbage generalizing st with
  | nil => exact .refl st
  | cons so garbage ih => exact (names_flush st so).trans (ih _)

theorem unp_deliver_names {dst dst' : Unp} {ty : SockType} {data : List UInt8}
    {fromName : Option (Option Name)} {cap n : Nat} {sender : Cred} {control : Option Control}
    (h : dst.deliver ty data fromName cap sender control = .ok (n, dst')) :
    dst'.name = dst.name ∧ dst'.node = dst.node := by
  cases ty <;> simp only [Unp.deliver] at h <;> split_ifs at h <;> cases h <;> exact ⟨rfl, rfl⟩

theorem names_deliver {st st' : State} {ty : SockType} {dest : Nat} {data : List UInt8}
    {fromName : Option (Option Name)} {cap n : Nat} {sender : Cred} {control : Option Control}
    {dropped : List Right}
    (h : st.deliver ty dest data fromName cap sender control = .ok (n, st', dropped)) :
    Names st st' := by
  unfold State.deliver at h
  split at h
  · cases h
  next dst hdst =>
    split_ifs at h
    · split at h
      · cases h
        exact .refl st
      · simp only [Except.ok.injEq, Prod.mk.injEq] at h
        exact (congrArg Prod.fst h.2).subst (names_discard st _)
    · split at h
      · cases h
      next dst' hdst' =>
        cases h
        obtain ⟨hname, hnode⟩ := unp_deliver_names hdst'
        exact .set hdst hname hnode

theorem names_sendMsg (st : State) (ty : SockType) (dest : Nat) (data : List UInt8)
    (fromName : Option (Option Name)) (cap : Nat) (sender : Cred) (control : Option Control) :
    Names st (st.sendMsg ty dest data fromName cap sender control).st := by
  simp only [State.sendMsg]
  split
  · exact .refl st
  next st₁ htake =>
    have hst₁ : Names st st₁ := by
      split_ifs at htake
      · cases htake
        exact .refl st
      · exact names_takeInflight htake
    split
    · dsimp only
      split_ifs
      · exact hst₁
      · exact hst₁.trans (names_putInflight st₁ _ _)
    next hdeliver => exact hst₁.trans (names_deliver hdeliver)

theorem unp_recvMsg_names (u : Unp) (ty : SockType) (len : Nat) (peek : Bool) (ctl : RecvCtl)
    (fdRoom : Nat) (fds : Nat → UInt32) :
    (u.recvMsg ty len peek ctl fdRoom fds).unp.name = u.name ∧
      (u.recvMsg ty len peek ctl fdRoom fds).unp.node = u.node := by
  rw [Unp.recvMsg]
  split
  · exact ⟨rfl, rfl⟩
  · dsimp only
    split_ifs <;> exact ⟨rfl, rfl⟩

theorem names_recvMsg (st : State) (so : Nat) (ty : SockType) (len : Nat) (peek : Bool)
    (ctl : RecvCtl) (fdRoom : Nat) (fds : Nat → UInt32) :
    Names st (st.recvMsg so ty len peek ctl fdRoom fds).2.1 := by
  rw [State.recvMsg]
  split
  · exact .refl st
  next u hu =>
    obtain ⟨hname, hnode⟩ := unp_recvMsg_names u ty len peek ctl fdRoom fds
    dsimp only
    split_ifs
    · exact .set hu hname hnode
    · exact (Names.set hu hname hnode).trans (names_putInflight _ _ _)

theorem names_accept (st : State) (so : Nat) : Names st (st.accept so).2 := by
  rw [State.accept]
  split
  · exact .refl st
  next hu =>
    split_ifs
    · split
      · exact .refl st
      · exact .set hu rfl rfl
    · exact .refl st

theorem names_shutdown (st : State) (so : Nat) (ty : SockType) (how : Nat) :
    Names st (st.shutdown so ty how).2.1 := by
  rw [State.shutdown]
  split
  · exact .refl st
  next u hu =>
    have hrd : Names st ((st.set so { u with rdShut := true }).flush so).1 := by
      refine Names.trans ?_ (names_flush _ so)
      exact .set hu rfl rfl
    split_ifs
    · exact .refl st
    · exact hrd.trans (Names.of_frame (frame_shutWrite _ so))
    · exact hrd
    · exact .of_frame (frame_shutWrite st so)
    · exact .refl st

theorem names_resetPending (st : State) (pending : List Nat) :
    Names st (st.resetPending pending).1 := by
  induction pending generalizing st with
  | nil => exact .refl st
  | cons conn pending ih =>
    rw [State.resetPending]
    split
    · exact ih st
    · exact ((Names.erase st conn).trans (names_discard _ _)).trans
        ((Names.of_frame (frame_resetClient _ _)).trans (ih _))

end OxideBSD.Local
