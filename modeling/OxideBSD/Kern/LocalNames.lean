import OxideBSD.Kern.LocalFrame
import OxideBSD.Kern.LocalRun

/-!
# Who owns the name of a local socket

`bind` enters a socket in a table of names, abstract names and socket files, where `connect` and
`sendto` look for it; the socket's own record of its name is what `detach` removes from the tables
again.  The server end of a connection takes over the record of its listener, so that
`getsockname` works.

* `Kept` is what is expected: a socket bound to a name is found under it until it is closed itself.
* `step_owned`, `run_kept`: that holds of every run in which no socket closes that has the abstract
  name of another open one in its record (`Own`).
* `accepted_not_kept`: it does not hold in general; closing an accepted connection unbinds the
  abstract name of its listener.
-/

set_option autoImplicit false

namespace OxideBSD.Local

open Option List

/-! ## What is kept -/

/-- The entry of the tables for a name. -/
def Place.lookup (st : State) : Place → Option Nat
  | .abstract a => st.abstractNames a
  | .node n => st.nodes n

/-- `connect` and `sendto` find the socket `so` under the name. -/
def Place.Finds (st : State) (so : Nat) : Place → Prop
  | .abstract a => ∀ node, st.resolve (.abstract a) node = .ok so
  | .node n => ∀ p, st.resolve (.path p) (.ok n) = .ok so

theorem Place.finds_of_lookup {st : State} {so : Nat} {place : Place}
    (h : place.lookup st = some so) : place.Finds st so := by
  cases place with
  | abstract a =>
    intro node
    rw [State.resolve, show st.abstractNames a = some so from h]
    rfl
  | node n =>
    intro p
    simp only [State.resolve]
    rw [show st.nodes n = some so from h]
    rfl

/-- A socket that was bound to a name is found under it as long as it is open, and no two open
sockets are bound to one name. -/
structure Kept (s : St) : Prop where
  found : ∀ so place, (so, place) ∈ s.bound → (s.st.socks so).isSome → place.Finds s.st so
  unique : ∀ so so' place, (so, place) ∈ s.bound → (so', place) ∈ s.bound →
    (s.st.socks so).isSome → (s.st.socks so').isSome → so = so'

/-- If the last reference of `real` goes, its record does not have the abstract name of another open
socket. -/
def St.OwnName (s : St) (real : Nat) : Prop :=
  ∀ u ∈ s.st.socks real, (s.descriptions real).any (· ≤ 1) →
    match u.name with
    | some (.abstract a) => ∀ owner ∈ s.st.abstractNames a, (s.st.socks owner).isSome → owner = real
    | _ => True

/-- No socket closes that has the abstract name of another open one in its record. -/
def St.Own (s : St) : Event → Prop
  | .close real => s.OwnName real
  | .work i _ _ =>
    match s.tasks[i]? with
    | some (.release r :: _) => s.OwnName r.real
    | _ => True
  | _ => True

instance (s : St) (real : Nat) : Decidable (s.OwnName real) := by
  refine @Option.decidableForallMem _ _ (fun u ↦ ?_) _
  refine @instDecidableForall _ _ _ ?_
  split <;> infer_instance

instance (s : St) (e : Event) : Decidable (s.Own e) := by
  cases e with
  | close real => exact inferInstanceAs (Decidable (s.OwnName real))
  | work i node cap =>
    unfold St.Own
    dsimp only
    split <;> infer_instance
  | _ => exact isTrue trivial

/-- The invariant. -/
structure Owned (s : St) : Prop where
  found : ∀ so place, (so, place) ∈ s.bound → (s.st.socks so).isSome → place.lookup s.st = some so
  fresh : ∀ so, (s.st.socks so).isSome → so < s.next
  bound_lt : ∀ so place, (so, place) ∈ s.bound → so < s.next
  node : ∀ so u node, s.st.socks so = some u → u.node = some node → (so, .node node) ∈ s.bound

theorem Owned.kept {s : St} (h : Owned s) : Kept s where
  found so place hbound hopen := Place.finds_of_lookup (h.found so place hbound hopen)
  unique so so' place hbound hbound' hopen hopen' :=
    some.inj ((h.found so place hbound hopen).symm.trans (h.found so' place hbound' hopen'))

theorem owned_init : Owned St.init := by
  refine ⟨fun _ _ h ↦ ?_, fun _ h ↦ ?_, fun _ _ h ↦ ?_, fun _ _ _ h ↦ ?_⟩
  · cases h
  · cases h
  · cases h
  · cases h

/-! ## The operations -/

section Operations

variable {s s' : St} {st' : State} {so real : Nat} {u : Unp}

theorem Place.lookup_of_names {st : State} (h : Names st st') (place : Place) :
    place.lookup st' = place.lookup st := by
  cases place with
  | abstract a => exact congrFun h.abstractNames a
  | node n => exact congrFun h.nodes n

/-- An operation that keeps the names. -/
theorem Owned.of_names (h : Owned s) (hst : Names s.st s'.st) (hbound : s'.bound = s.bound)
    (hnext : s.next ≤ s'.next) : Owned s' := by
  have hopen : ∀ so, (s'.st.socks so).isSome → (s.st.socks so).isSome := by
    intro so hso
    obtain ⟨u', hu'⟩ := isSome_iff_exists.1 hso
    obtain ⟨u, hu, -⟩ := hst.socks so u' hu'
    rw [hu]
    rfl
  refine ⟨fun so place hb hso ↦ ?_, fun so hso ↦ ?_, fun so place hb ↦ ?_,
    fun so u' node hu' hnode ↦ ?_⟩
  · rw [Place.lookup_of_names hst]
    exact h.found so place (hbound ▸ hb) (hopen so hso)
  · exact (h.fresh so (hopen so hso)).trans_le hnext
  · exact (h.bound_lt so place (hbound ▸ hb)).trans_le hnext
  · obtain ⟨u, hu, -, hnode'⟩ := hst.socks so u' hu'
    rw [hbound]
    exact h.node so u node hu (hnode' ▸ hnode)

/-- A socket is made, without a name or with the record of another. -/
theorem Owned.attach (h : Owned s) (hnode : u.node = none) :
    Owned { s with st := s.st.set s.next u, next := s.next + 1 } := by
  have hne : ∀ {so place}, (so, place) ∈ s.bound → so ≠ s.next := fun hb ↦
    Nat.ne_of_lt (h.bound_lt _ _ hb)
  refine ⟨fun so place hb hso ↦ ?_, fun so hso ↦ ?_, fun so place hb ↦ ?_,
    fun so u' node hu' hnode' ↦ ?_⟩
  · have hopen : (s.st.socks so).isSome := by simpa [State.set, hne hb] using hso
    have hfound := h.found so place hb hopen
    cases place <;> exact hfound
  · by_cases hnext : so = s.next
    · exact hnext ▸ Nat.lt_succ_self _
    · have hopen : (s.st.socks so).isSome := by simpa [State.set, hnext] using hso
      exact Nat.lt_succ_of_lt (h.fresh so hopen)
  · exact Nat.lt_succ_of_lt (h.bound_lt so place hb)
  · by_cases hnext : so = s.next
    · simp only [State.set, hnext, Function.update_self, some.injEq] at hu'
      rw [← hu', hnode] at hnode'
      cases hnode'
    · simp only [State.set, Function.update_of_ne hnext] at hu'
      exact h.node so u' node hu' hnode'

/-- A name that was free is given to `so`. -/
theorem Owned.bind (h : Owned s) (hu : s.st.socks so = some u) (place : Place) {u' : Unp}
    (hfree : place.lookup s.st = none) (hself : place.lookup st' = some so)
    (hothers : ∀ place', place' ≠ place → place'.lookup st' = place'.lookup s.st)
    (hsocks : st'.socks = Function.update s.st.socks so (some u'))
    (hnode : ∀ node, u'.node = some node → u.node = some node ∨ place = .node node) :
    Owned { s with st := st', bound := (so, place) :: s.bound } := by
  have hopen : ∀ so', (st'.socks so').isSome = (s.st.socks so').isSome := by
    intro so'
    by_cases hso : so' = so
    · simp [hsocks, hso, hu]
    · simp [hsocks, hso]
  have hso : (s.st.socks so).isSome := by rw [hu]; rfl
  refine ⟨fun so' place' hb hso' ↦ ?_, fun so' hso' ↦ ?_, fun so' place' hb ↦ ?_,
    fun so' v node hv hvnode ↦ ?_⟩
  · rcases mem_cons.1 hb with hb | hb
    · cases hb
      exact hself
    · have hfound := h.found so' place' hb (by rwa [← hopen])
      have hne : place' ≠ place := by
        rintro rfl
        rw [hfree] at hfound
        cases hfound
      exact (hothers place' hne).trans hfound
  · exact h.fresh so' (by rwa [← hopen])
  · rcases mem_cons.1 hb with hb | hb
    · cases hb
      exact h.fresh so hso
    · exact h.bound_lt so' place' hb
  · by_cases hso' : so' = so
    · subst hso'
      simp only [hsocks, Function.update_self, some.injEq] at hv
      rcases hnode node (hv ▸ hvnode) with hold | rfl
      · exact mem_cons_of_mem _ (h.node so' u node hu hold)
      · exact mem_cons_self
    · simp only [hsocks, Function.update_of_ne hso'] at hv
      exact mem_cons_of_mem _ (h.node so' v node hv hvnode)

/-- The tables change only where nobody is bound. -/
theorem Owned.of_free (h : Owned s) (place : Place) (hfree : place.lookup s.st = none)
    (hothers : ∀ place', place' ≠ place → place'.lookup st' = place'.lookup s.st)
    (hsocks : st'.socks = s.st.socks) : Owned { s with st := st' } := by
  refine ⟨fun so place' hb hso ↦ ?_, fun so hso ↦ ?_, h.bound_lt, fun so u node hu hnode ↦ ?_⟩
  · have hfound := h.found so place' hb (by simpa only [hsocks] using hso)
    have hne : place' ≠ place := by
      rintro rfl
      rw [hfree] at hfound
      cases hfound
    exact (hothers place' hne).trans hfound
  · exact h.fresh so (by simpa only [hsocks] using hso)
  · exact h.node so u node (by simpa only [hsocks] using hu) hnode

theorem lookup_update_abstract (st : State) (a : List UInt8) (owner : Option Nat) (place : Place)
    (hne : place ≠ .abstract a) :
    place.lookup { st with abstractNames := Function.update st.abstractNames a owner }
      = place.lookup st := by
  cases place with
  | abstract b => exact Function.update_of_ne (fun hab ↦ hne (congrArg Place.abstract hab)) _ _
  | node n => rfl

theorem lookup_update_node (st : State) (n : Nat) (owner : Option Nat) (place : Place)
    (hne : place ≠ .node n) :
    place.lookup { st with nodes := Function.update st.nodes n owner } = place.lookup st := by
  cases place with
  | abstract b => rfl
  | node m => exact Function.update_of_ne (fun hmn ↦ hne (congrArg Place.node hmn)) _ _

theorem lookup_set (st : State) (so : Nat) (u : Unp) (place : Place) :
    place.lookup (st.set so u) = place.lookup st := by
  cases place <;> rfl

/-- A free abstract name is given to `so`. -/
theorem Owned.bindName (h : Owned s) {a : List UInt8} (hu : s.st.socks so = some u)
    (hfree : s.st.abstractNames a = none) :
    Owned (s.bindResult so (.ok (), { s.st with
      abstractNames := Function.update s.st.abstractNames a (some so) }.set so
        { u with name := some (.abstract a) })) := by
  have hplace : ∀ st : State, ((st.set so { u with name := some (.abstract a) }).socks so).bind
      Unp.place = some (.abstract a) := by
    simp [State.set, Unp.place]
  simp only [St.bindResult, hplace]
  refine h.bind hu (.abstract a) hfree ?_ (fun place hne ↦ ?_) rfl fun node hnode ↦
    Or.inl hnode
  · exact Function.update_self ..
  · rw [lookup_set, lookup_update_abstract _ _ _ _ hne]

theorem Owned.bindAbstract (h : Owned s) (so : Nat) (a : List UInt8) :
    Owned (s.bindResult so (s.st.bindAbstract so a)) := by
  rw [State.bindAbstract]
  split_ifs with hused
  · exact h
  · have hfree : s.st.abstractNames a = none := by simpa using hused
    dsimp only
    split
    · exact h.of_free (.abstract a) hfree (lookup_update_abstract _ _ _) rfl
    next u hu => exact h.bindName hu hfree

theorem Owned.bindPath (h : Owned s) (so : Nat) (p : List UInt8) {n : Nat}
    (hfree : s.st.nodes n = none) : Owned (s.bindResult so (s.st.bindPath so p n)) := by
  rw [State.bindPath]
  split
  · exact h.of_free (.node n) hfree (lookup_update_node _ _ _) rfl
  next u hu =>
    have hplace : ∀ st : State, ((st.set so
        { u with name := some (.path p), node := some n }).socks so).bind Unp.place
          = some (.node n) := by
      simp [State.set, Unp.place]
    simp only [St.bindResult, hplace]
    refine h.bind hu (.node n) hfree ?_ (fun place hne ↦ ?_) rfl fun node hnode ↦
      Or.inr (congrArg Place.node (some.inj hnode))
    · exact Function.update_self ..
    · rw [lookup_set, lookup_update_node _ _ _ _ hne]

theorem Owned.autobind (st : State) (h : Owned { s with st := st }) (hu : st.socks so = some u)
    (fuel : Nat) : Owned (s.bindResult so (st.autobind so u fuel)) := by
  induction fuel generalizing st with
  | zero => exact h
  | succ fuel ih =>
    have hnext : Owned { s with st := { st with nextAutobind := st.nextAutobind + 1 } } :=
      h.of_names ⟨rfl, rfl, fun _ v hv ↦ ⟨v, hv, rfl, rfl⟩⟩ rfl le_rfl
    rw [State.autobind]
    split_ifs with hused
    · exact ih _ hnext hu
    · exact hnext.bindName hu (by simpa using hused)

theorem Owned.bindUnnamed (h : Owned s) (so : Nat) :
    Owned (s.bindResult so (s.st.bindUnnamed so)) := by
  rw [State.bindUnnamed]
  split
  · exact h
  next u hu =>
    split_ifs
    · exact h
    · exact Owned.autobind s.st h hu _

/-- What `detach` leaves: the tables without the name, and sockets that were there. -/
theorem detach_names (hu : s.st.socks real = some u) :
    (s.st.detach real).1.abstractNames = (s.st.unbind u).abstractNames ∧
      (s.st.detach real).1.nodes = (s.st.unbind u).nodes ∧
      ∀ so u', (s.st.detach real).1.socks so = some u' →
        so ≠ real ∧ ∃ v, s.st.socks so = some v ∧ u'.node = v.node := by
  have hdiscard := names_discard
    { s.st with socks := Function.update s.st.socks real none } u.queue
  obtain ⟨st₁, hst₁⟩ : ∃ st₁, st₁ =
    ({ s.st with socks := Function.update s.st.socks real none }.discard u.queue).1 := ⟨_, rfl⟩
  rw [← hst₁] at hdiscard
  have hrest : Names (st₁.unbind u) (s.st.detach real).1 := by
    simp only [State.detach, hu, ← hst₁]
    exact (names_resetPending _ _).trans (.of_frame (frame_tellPeer _ _))
  have hsocks : (st₁.unbind u).socks = st₁.socks := by
    rw [State.unbind]
    split
    · rfl
    · split <;> rfl
    · rfl
  refine ⟨?_, ?_, fun so u' hu' ↦ ?_⟩
  · rw [hrest.abstractNames]
    unfold State.unbind
    split
    · simp only [hdiscard.abstractNames]
    · split <;> exact hdiscard.abstractNames
    · exact hdiscard.abstractNames
  · rw [hrest.nodes]
    unfold State.unbind
    split
    · exact hdiscard.nodes
    · split
      · simp only [hdiscard.nodes]
      · exact hdiscard.nodes
    · exact hdiscard.nodes
  · obtain ⟨v, hv, -, hnode⟩ := hrest.socks so u' hu'
    rw [hsocks] at hv
    obtain ⟨w, hw, -, hnode'⟩ := hdiscard.socks so v hv
    have hne : so ≠ real := by
      rintro rfl
      simp at hw
    simp only [Function.update_of_ne hne] at hw
    exact ⟨hne, w, hw, hnode.trans hnode'⟩

/-- **A socket that closes unbinds nobody else.** -/
theorem Owned.detach (h : Owned s) (hu : s.st.socks real = some u)
    (hown : ∀ a, u.name = some (.abstract a) → ∀ owner, s.st.abstractNames a = some owner →
      (s.st.socks owner).isSome → owner = real) :
    Owned { s with st := (s.st.detach real).1 } := by
  obtain ⟨habstract, hnodes, hsocks⟩ := detach_names hu
  have hopen : ∀ so, ((s.st.detach real).1.socks so).isSome → so ≠ real ∧ (s.st.socks so).isSome := by
    intro so hso
    obtain ⟨u', hu'⟩ := isSome_iff_exists.1 hso
    obtain ⟨hne, v, hv, -⟩ := hsocks so u' hu'
    exact ⟨hne, by rw [hv]; rfl⟩
  refine ⟨fun so place hb hso ↦ ?_, fun so hso ↦ h.fresh so (hopen so hso).2, h.bound_lt,
    fun so u' node hu' hnode ↦ ?_⟩
  · obtain ⟨hne, hso⟩ := hopen so hso
    have hfound := h.found so place hb hso
    cases place with
    | abstract a =>
      have hname : u.name ≠ some (.abstract a) := fun hname ↦ hne (hown a hname so hfound hso)
      show (s.st.detach real).1.abstractNames a = some so
      rw [habstract, State.unbind]
      split
      next b hb =>
        have hab : a ≠ b := fun hab ↦ hname (hab ▸ hb)
        simp only [Function.update_of_ne hab]
        exact hfound
      · split <;> exact hfound
      · exact hfound
    | node n =>
      have hnode : u.node ≠ some n := fun hnode ↦ by
        have hreal := h.found real (.node n) (h.node real u n hu hnode) (by rw [hu]; rfl)
        exact hne (some.inj (hfound.symm.trans hreal))
      show (s.st.detach real).1.nodes n = some so
      rw [hnodes, State.unbind]
      split
      · exact hfound
      · split
        next m hm =>
          have hmn : n ≠ m := fun hmn ↦ hnode (hmn ▸ hm)
          simp only [Function.update_of_ne hmn]
          exact hfound
        · exact hfound
      · exact hfound
  · obtain ⟨-, v, hv, hnode'⟩ := hsocks so u' hu'
    exact h.node so v node hv (hnode' ▸ hnode)

theorem detach_of_none {st : State} (h : st.socks real = none) : st.detach real = (st, [], false) := by
  rw [State.detach, h]

theorem Owned.dropRef (h : Owned s) (hown : s.OwnName real) : Owned (s.dropRef real).1 := by
  rw [St.dropRef]
  split
  · exact h
  next n hn =>
    have hrefs : Owned { s with
        descriptions := Function.update s.descriptions real (some (n - 1)) } :=
      h.of_names (.refl _) rfl le_rfl
    by_cases hlast : n - 1 = 0
    · rw [if_pos hlast]
      cases hu : s.st.socks real with
      | none =>
        simp only [detach_of_none hu]
        exact hrefs
      | some u =>
        refine hrefs.detach hu fun a hname owner howner hopen ↦ ?_
        have hlast' : (s.descriptions real).any (· ≤ 1) = true := by
          rw [hn, any_some, decide_eq_true_eq]
          omega
        have hown' := hown u hu hlast'
        rw [hname] at hown'
        exact hown' owner howner hopen
    · rw [if_neg hlast]
      exact hrefs

theorem Owned.connect (h : Owned s) (so : Nat) (ty : SockType) (name : Name) (target : Nat)
    (cred : Cred) :
    Owned { s with st := (s.st.connect so ty name target s.next cred).2, next := s.next + 1 } := by
  have hsame : Owned { s with next := s.next + 1 } := h.of_names (.refl _) rfl (Nat.le_succ _)
  rw [State.connect]
  split
  · exact hsame
  next listener hlistener =>
    split
    · exact hsame
    · split
      · exact hsame
      next me hme =>
        split_ifs
        · exact hsame.of_names (.set hme rfl rfl) rfl le_rfl
        · exact hsame
        · exact hsame
        · exact hsame
        · -- the server end is new, the two others are as they were but for the connection
          have hso : so ≠ s.next := Nat.ne_of_lt (h.fresh so (by rw [hme]; rfl))
          have htarget : target ≠ s.next := Nat.ne_of_lt (h.fresh target (by rw [hlistener]; rfl))
          refine (h.attach (u := { Unp.new ty with
            name := listener.name
            peer := some so
            peerName := me.name
            peerCred := some cred
            connected := true }) rfl).of_names ?_ rfl le_rfl
          refine .set_set (u := listener) (v := me) ?_ ?_ rfl rfl rfl rfl
          · simp [State.set, htarget, hlistener]
          · simp [State.set, hso, hme]

theorem Owned.begin (h : Owned s) (work : List Work) : Owned (s.begin work) :=
  h.of_names (.refl _) rfl le_rfl

/-- **One item of work.** -/
theorem Owned.doWork (h : Owned s) {w : Work} {node : Except Nat Nat} {cap : Nat}
    {r : St × List Work} (hown : ∀ right, w = .release right → s.OwnName right.real)
    (hr : s.doWork w node cap = some r) : Owned r.1 := by
  cases w with
  | release right =>
    cases hr
    have hdrop := h.dropRef (hown right rfl)
    exact hdrop.of_names (.refl _) rfl le_rfl
  | forget real =>
    cases hr
    exact h.of_names (.refl _) rfl le_rfl
  | collect =>
    simp only [St.doWork] at hr
    split_ifs at hr <;> cases hr
    · exact h
    · exact h.of_names (.refl _) rfl le_rfl
  | mark =>
    simp only [St.doWork] at hr
    split_ifs at hr <;> cases hr
    · exact h.of_names (.refl _) rfl le_rfl
    · exact h.of_names (.refl _) rfl le_rfl
    · exact h
  | flush garbage =>
    cases hr
    exact h.of_names (names_flushAll _ _) rfl le_rfl
  | install so =>
    cases hr
    exact h.of_names (.refl _) rfl le_rfl
  | bind so name =>
    cases name with
    | abstract a =>
      cases hr
      exact h.bindAbstract so a
    | path p =>
      simp only [St.doWork] at hr
      split at hr
      · cases hr
        exact h
      · split_ifs at hr with hused
        cases hr
        exact h.bindPath so p (by simpa using hused)
  | connect so ty name target cred =>
    cases hr
    exact h.connect so ty name target cred
  | address so dest data sender control =>
    simp only [St.doWork] at hr
    split at hr <;> cases hr <;> exact h
  | send ty dest data fromName sender control =>
    simp only [St.doWork] at hr
    split_ifs at hr <;> cases hr
    · exact h
    · exact h.of_names (names_sendMsg _ _ _ _ _ _ _ _) rfl le_rfl

end Operations

/-! ## Runs -/

/-- **One step keeps the owners of names.** -/
theorem step_owned {s s' : St} {e : Event} (hown : s.Own e) (h : Owned s)
    (hstep : s.step e = some s') : Owned s' := by
  cases e with
  | work i node cap =>
    simp only [St.step] at hstep
    split at hstep
    next w rest htask =>
      obtain ⟨r, hr, rfl⟩ := map_eq_some_iff.1 hstep
      have hwork : Owned r.1 := by
        refine h.doWork (fun right hw ↦ ?_) hr
        simp only [St.Own, htask, hw] at hown
        exact hown
      exact hwork.of_names (.refl _) rfl le_rfl
    · cases hstep
  | file =>
    cases hstep
    exact h.of_names (.refl _) rfl (Nat.le_succ _)
  | socket ty =>
    cases hstep
    exact (h.attach rfl).begin _
  | socketpair ty cred =>
    cases hstep
    have hboth := (h.attach (u := Unp.new ty) rfl).attach (u := Unp.new ty) rfl
    exact hboth.of_names (.of_frame (frame_pair _ _ _ _)) rfl le_rfl
  | dup real =>
    simp only [St.step] at hstep
    split at hstep
    · cases hstep
    · split_ifs at hstep
      cases hstep
      exact h.of_names (.refl _) rfl le_rfl
  | close real =>
    simp only [St.step] at hstep
    split_ifs at hstep
    split at hstep
    · cases hstep
    · cases hstep
      have hslots : Owned { s with slots := Function.update s.slots real (s.slots real - 1) } :=
        h.of_names (.refl _) rfl le_rfl
      have hdrop : Owned (St.dropRef { s with
          slots := Function.update s.slots real (s.slots real - 1) } real).1 := hslots.dropRef hown
      split_ifs <;> exact hdrop.begin _
  | bind so addr =>
    simp only [St.step] at hstep
    split at hstep
    · cases hstep
      exact h
    · cases hstep
      exact h.bindUnnamed so
    · split at hstep <;> cases hstep
      · exact h
      · exact h.begin _
  | listen so backlog cred =>
    simp only [St.step] at hstep
    split at hstep <;> cases hstep
    · exact h
    · exact h.of_names (.of_frame (frame_listen _ _ _ _ _)) rfl le_rfl
  | connect so addr node cred =>
    simp only [St.step] at hstep
    split at hstep
    · cases hstep
      exact h
    · split_ifs at hstep
      · cases hstep
        exact h.of_names (.of_frame (frame_disconnect _ _)) rfl le_rfl
      · split at hstep
        · split at hstep <;> cases hstep
          · exact h
          · exact h.begin _
        · cases hstep
          exact h
  | accept so =>
    simp only [St.step] at hstep
    split at hstep <;> cases hstep
    · exact h
    · refine Owned.begin ?_ _
      exact h.of_names (names_accept _ _) rfl le_rfl
  | send so data addr node control fdOf cred sndbuf =>
    simp only [St.step] at hstep
    split at hstep
    · cases hstep
      exact h
    · split_ifs at hstep
      · cases hstep
        exact h
      · split at hstep
        · cases hstep
          exact h
        · split at hstep <;> cases hstep
          · exact h
          · exact h.begin _
  | recv so len peek ctl fdRoom fds =>
    simp only [St.step] at hstep
    split at hstep <;> cases hstep
    · exact h
    · refine Owned.begin ?_ _
      exact h.of_names (names_recvMsg _ _ _ _ _ _ _ _) rfl le_rfl
  | shutdown so how =>
    simp only [St.step] at hstep
    split at hstep <;> cases hstep
    · exact h
    · refine Owned.begin ?_ _
      exact h.of_names (names_shutdown _ _ _ _) rfl le_rfl
  | setPasscred so on =>
    cases hstep
    exact h.of_names (.of_frame (frame_setPasscred _ _ _)) rfl le_rfl
  | setLocalCreds so want on =>
    cases hstep
    exact h.of_names (.of_frame (frame_setLocalCreds _ _ _ _)) rfl le_rfl

/-- **Bound names stay.**  In every run in which no socket closes that has the abstract name of
another open one in its record, a socket that was bound to a name is found under it until it closes
itself, and no two open sockets are bound to one name. -/
theorem run_kept {es : List Event} {s : St} (hown : Machine.Meets St.step St.Own St.init es)
    (hrun : Machine.run St.step St.init es = some s) : Kept s :=
  (Machine.run_inv (fun _ _ _ hown h hstep ↦ step_owned hown h hstep) owned_init hown hrun).kept

/-- Credentials of root. -/
def root : Cred := ⟨1, 0, 0, 0, 0, 1, List.replicate 16 0⟩

/-- The abstract name `a`. -/
def addrA : List UInt8 := [1, 0, 0, 97]

/-- A listener is bound to the abstract name `a`, somebody connects, and the connection is
accepted. -/
def acceptOne : List Event :=
  [.socket .stream, .work 0 (.ok 0) 0, .bind 0 addrA, .work 1 (.ok 0) 0, .listen 0 5 root,
    .socket .stream, .work 2 (.ok 0) 0, .connect 1 addrA (.ok 0) root, .work 3 (.ok 0) 0,
    .accept 0, .work 4 (.ok 0) 0]

/-- The client closes its end. -/
theorem run_kept_client : ∃ s, Machine.run St.step St.init (acceptOne ++ [.close 1]) = some s ∧
    (0, .abstract [97]) ∈ s.bound ∧ (s.st.socks 2).isSome ∧ Kept s :=
  Machine.exists_run_of (fun s ↦ (0, .abstract [97]) ∈ s.bound ∧ (s.st.socks 2).isSome = true)
    (by decide +kernel)
    fun _ hrun ⟨hbound, hopen⟩ ↦ ⟨hbound, hopen, run_kept (by decide +kernel) hrun⟩

/-- **Closing the accepted connection unbinds the listener**, which is still open. -/
theorem accepted_not_kept : ∃ s, Machine.run St.step St.init (acceptOne ++ [.close 2]) = some s ∧
    (s.st.socks 0).isSome ∧ ¬ Kept s := by
  refine Machine.exists_run_of (fun s ↦ (0, .abstract [97]) ∈ s.bound ∧
    (s.st.socks 0).isSome = true ∧ s.st.abstractNames [97] = none) (by decide +kernel)
    fun s _ ⟨hbound, hopen, hnone⟩ ↦ ?_
  refine ⟨hopen, fun h ↦ ?_⟩
  have hfinds := h.found 0 (.abstract [97]) hbound hopen (.ok 0)
  rw [State.resolve, hnone] at hfinds
  cases hfinds

end OxideBSD.Local
