import OxideBSD.Lib.Lists
import OxideBSD.Lib.Machine

/-!
# The name cache

`sys/kern/vfs_cache.rs`: `(directory vnode, name) → vnode`, with negative entries for names that are
not there.  The key is the name itself, or the name folded to lower case on a file system whose names
compare without case (`Folding`).  Entries are dropped oldest first past a limit, and `namesOf` finds
the keys that name a vnode, so that `purge` can drop them before the vnode goes.

* `NameCache.get` is what is cached under a key.
* What is still cached after an operation was cached before it, and is none of what the operation
  forgets: `get_enter`, `get_purgeName`, `get_purge`, `get_purgeNegative`.
* `NameCache.WF`: the indices match the entries; every operation keeps it.

What `note_opened` remembers for `fullpath` is never the answer of a lookup and is left out.
-/

set_option autoImplicit false

namespace OxideBSD.Vfs

open Function List AList

/-- A name, as bytes. -/
abbrev Name : Type := List UInt8

/-- `b"."` and `b".."`. -/
def dot : Name := [46]
def dotdot : Name := [46, 46]

/-- How the cache folds the names of a mount: not at all, or (`VFCF_CASEFOLD`) by `lower`. -/
structure Folding where
  casefold : Bool
  lower : Name → Name

/-- What a lookup in the cache found: the vnode, or that the name is known not to exist. -/
inductive Hit (V : Type)
  | found (vp : V)
  | missing
  deriving DecidableEq

section Cache

variable {V : Type} [DecidableEq V]

/-- The cache key for `name` in `dvp`. -/
def Folding.key (F : Folding) (dvp : V) (name : Name) : V × Name :=
  (dvp, if F.casefold then F.lower name else name)

variable (V) in
structure NameCache where
  /-- The vnode, or `none` for a negative entry, and its age. -/
  entries : AList fun _ : V × Name ↦ Option V × Nat
  /-- The ages in order, to drop the oldest. -/
  byAge : List (Nat × (V × Name))
  /-- The keys naming a vnode. -/
  namesOf : V → List (V × Name)
  nextAge : Nat

namespace NameCache

/-! ## The functions -/

def empty : NameCache V := ⟨∅, [], fun _ ↦ [], 0⟩

/-- The keys naming each vnode, without `key` for `vp`. -/
def dropName (namesOf : V → List (V × Name)) (key : V × Name) : Option V → V → List (V × Name)
  | none => namesOf
  | some vp => update namesOf vp ((namesOf vp).filter fun k ↦ k ≠ key)

/-- The keys naming each vnode, with `key` for `vp`. -/
def addName (namesOf : V → List (V × Name)) (key : V × Name) : Option V → V → List (V × Name)
  | none => namesOf
  | some vp => update namesOf vp (namesOf vp ++ [key])

def removeKey (c : NameCache V) (key : V × Name) : NameCache V :=
  match c.entries.lookup key with
  | none => c
  | some (vp, age) =>
    { c with
      entries := c.entries.erase key
      byAge := c.byAge.filter fun x ↦ x.1 ≠ age
      namesOf := dropName c.namesOf key vp }

/-- `removeKey` for each of `keys`. -/
def removeKeys (c : NameCache V) (keys : List (V × Name)) : NameCache V := keys.foldl removeKey c

/-- The keys in directory `dvp` whose entry is `p`. -/
def keysIn (c : NameCache V) (dvp : V) (p : Option V → Bool) : List (V × Name) :=
  (c.entries.entries.filter fun x ↦ x.1.1 = dvp ∧ p x.2.1).map Sigma.fst

def lookup (F : Folding) (c : NameCache V) (dvp : V) (name : Name) : Option (Hit V) :=
  match c.entries.lookup (F.key dvp name) with
  | some (none, _) => some .missing
  | some (some vp, _) => some (.found vp)
  | none => none

/-- Drops the oldest entries while there are `limit` or more; every round drops one. -/
def evict (limit : Nat) : Nat → NameCache V → NameCache V
  | 0, c => c
  | fuel + 1, c =>
    if limit ≤ c.entries.entries.length then
      match c.byAge with
      | [] => c
      | (_, oldest) :: _ => evict limit fuel (c.removeKey oldest)
    else c

/-- `name` in `dvp` is `vp`, or known missing. -/
def enter (F : Folding) (limit : Nat) (c : NameCache V) (dvp : V) (name : Name) (vp : Option V) :
    NameCache V :=
  if name = dot ∨ name = dotdot then c
  else
    let key := F.key dvp name
    let c := c.removeKey key
    let c := evict limit c.entries.entries.length c
    let age := c.nextAge + 1
    { entries := c.entries.insert key (vp, age)
      byAge := c.byAge ++ [(age, key)]
      namesOf := addName c.namesOf key vp
      nextAge := age }

/-- Forgets `name` in `dvp`, and where case is folded every other name of its file there. -/
def purgeName (F : Folding) (c : NameCache V) (dvp : V) (name : Name) : NameCache V :=
  let key := F.key dvp name
  let c' :=
    if F.casefold then
      match c.entries.lookup key with
      | some (some vp, _) => c.removeKeys (c.keysIn dvp fun v ↦ v = some vp)
      | _ => c
    else c
  c'.removeKey key

/-- Forgets everything naming `vp` and everything in it. -/
def purge (c : NameCache V) (vp : V) : NameCache V :=
  let c := c.removeKeys (c.namesOf vp)
  c.removeKeys (c.keysIn vp fun _ ↦ true)

/-- Forgets every negative entry in `dvp`. -/
def purgeNegative (c : NameCache V) (dvp : V) : NameCache V :=
  c.removeKeys (c.keysIn dvp fun v ↦ v = none)

/-! ## What is cached -/

/-- What is cached under a key. -/
def get (c : NameCache V) (k : V × Name) : Option (Option V) := (c.entries.lookup k).map Prod.fst

section Get

variable {c : NameCache V} {F : Folding} {k k' : V × Name} {h : Option V} {dvp : V} {limit : Nat}
  {name : Name}

theorem lookup_eq (F : Folding) (c : NameCache V) (dvp : V) (name : Name) :
    c.lookup F dvp name = (c.get (F.key dvp name)).map fun v ↦ v.elim .missing .found := by
  rw [lookup, get]
  match c.entries.lookup (F.key dvp name) with
  | none => rfl
  | some (none, _) => rfl
  | some (some _, _) => rfl

theorem removeKey_entries (c : NameCache V) (k : V × Name) :
    (c.removeKey k).entries = c.entries.erase k := by
  unfold removeKey
  split
  · next hnone =>
    refine AList.ext (kerase_of_notMem_keys ?_).symm
    exact mem_keys.not.1 (lookup_eq_none.1 hnone)
  · rfl

theorem get_removeKey (c : NameCache V) (k k' : V × Name) :
    (c.removeKey k).get k' = if k' = k then none else c.get k' := by
  rw [get, removeKey_entries, get]
  split
  · next heq =>
    rw [heq, lookup_erase]
    rfl
  · next hne => rw [lookup_erase_ne hne]

theorem get_removeKeys (ks : List (V × Name)) (c : NameCache V) (k : V × Name) :
    (c.removeKeys ks).get k = if k ∈ ks then none else c.get k := by
  induction ks generalizing c with
  | nil => rfl
  | cons k' ks ih =>
    show ((c.removeKey k').removeKeys ks).get k = _
    rw [ih, get_removeKey]
    by_cases hk : k = k'
    · simp [hk]
    · simp [hk]

theorem mem_keysIn {p : Option V → Bool} :
    k ∈ c.keysIn dvp p ↔ k.1 = dvp ∧ ∃ v, c.get k = some v ∧ p v = true := by
  rw [keysIn, mem_map]
  constructor
  · rintro ⟨⟨k', v, age⟩, hmem, rfl⟩
    obtain ⟨hmem, hp⟩ := mem_filter.1 hmem
    obtain ⟨hdir, hp⟩ := of_decide_eq_true hp
    refine ⟨hdir, v, ?_, hp⟩
    rw [get, mem_lookup_iff.2 hmem]
    rfl
  · rintro ⟨hdir, v, hget, hp⟩
    obtain ⟨⟨v, age⟩, hlook, rfl⟩ := Option.map_eq_some_iff.1 hget
    exact ⟨⟨k, v, age⟩, mem_filter.2 ⟨mem_lookup_iff.1 hlook, by simp [hdir, hp]⟩, rfl⟩

theorem get_of_get_evict {fuel : Nat} (hget : (evict limit fuel c).get k = some h) :
    c.get k = some h := by
  induction fuel generalizing c with
  | zero => exact hget
  | succ fuel ih =>
    rw [evict] at hget
    split at hget
    · split at hget
      · exact hget
      · have hget := ih hget
        rw [get_removeKey] at hget
        split at hget
        · cases hget
        · exact hget
    · exact hget

/-- What `enter` leaves: the entry made, and otherwise nothing new. -/
theorem get_enter {vp : Option V} (hget : (c.enter F limit dvp name vp).get k = some h) :
    k = F.key dvp name ∧ h = vp ∨ c.get k = some h := by
  rw [enter] at hget
  split at hget
  · exact Or.inr hget
  · rw [get] at hget
    by_cases hk : k = F.key dvp name
    · rw [hk, lookup_insert] at hget
      exact Or.inl ⟨hk, (Option.some.inj hget).symm⟩
    · rw [lookup_insert_ne hk] at hget
      have hget := get_of_get_evict hget
      rw [get_removeKey, if_neg hk] at hget
      exact Or.inr hget

theorem get_enter_self (hname : name ≠ dot ∧ name ≠ dotdot) (vp : Option V) :
    (c.enter F limit dvp name vp).get (F.key dvp name) = some vp := by
  rw [enter, if_neg (not_or.2 hname), get, lookup_insert]
  rfl

theorem get_purgeName (hget : (c.purgeName F dvp name).get k = some h) :
    c.get k = some h ∧ k ≠ F.key dvp name ∧ (F.casefold = true → ∀ vp,
      c.get (F.key dvp name) = some (some vp) → k.1 = dvp → h ≠ some vp) := by
  rw [purgeName, get_removeKey] at hget
  obtain ⟨hne, hget⟩ := of_ite_left hget nofun
  split at hget
  · split at hget
    · next vp age hlook =>
      rw [get_removeKeys] at hget
      obtain ⟨hnot, hget⟩ := of_ite_left hget nofun
      refine ⟨hget, hne, fun _ vp' hvp' hdir heq ↦ hnot (mem_keysIn.2 ⟨hdir, h, hget, ?_⟩)⟩
      rw [get, hlook] at hvp'
      cases hvp'
      exact decide_eq_true heq
    · next hlook =>
      refine ⟨hget, hne, fun _ vp hvp ↦ ?_⟩
      obtain ⟨⟨_, age⟩, hlook', rfl⟩ := Option.map_eq_some_iff.1 hvp
      exact absurd hlook' (hlook vp age)
  · next hfold => exact ⟨hget, hne, fun hf ↦ absurd hf hfold⟩

theorem get_purgeNegative (hget : (c.purgeNegative dvp).get k = some h) :
    c.get k = some h ∧ (k.1 = dvp → h ≠ none) := by
  rw [purgeNegative, get_removeKeys] at hget
  split at hget
  · cases hget
  · next hnot =>
    exact ⟨hget, fun hdir heq ↦ hnot (mem_keysIn.2 ⟨hdir, h, hget, decide_eq_true heq⟩)⟩

end Get

/-! ## The indices -/

/-- The indices match the entries. -/
structure WF (c : NameCache V) : Prop where
  names : ∀ k v, c.get k = some (some v) → k ∈ c.namesOf v
  ages : ∀ a k, (a, k) ∈ c.byAge ↔ ∃ v, c.entries.lookup k = some (v, a)
  inj : ∀ a k k', (a, k) ∈ c.byAge → (a, k') ∈ c.byAge → k = k'
  young : ∀ x ∈ c.byAge, x.1 ≤ c.nextAge

section WF

variable {c : NameCache V} {F : Folding} {k : V × Name}

theorem empty_wf : (empty : NameCache V).WF where
  names k v hget := by cases hget
  ages a k := by
    constructor
    · intro hmem
      cases hmem
    · rintro ⟨v, hlook⟩
      cases hlook
  inj a k k' hmem := by cases hmem
  young x hmem := by cases hmem

theorem mem_dropName {namesOf : V → List (V × Name)} {key : V × Name} {v : V} (hne : k ≠ key)
    (hmem : k ∈ namesOf v) (vp : Option V) : k ∈ dropName namesOf key vp v := by
  cases vp with
  | none => exact hmem
  | some vp =>
    rw [dropName]
    by_cases hv : v = vp
    · subst hv
      rw [update_self]
      exact mem_filter.2 ⟨hmem, decide_eq_true hne⟩
    · rw [update_of_ne hv]
      exact hmem

theorem mem_addName {namesOf : V → List (V × Name)} {v : V} (hmem : k ∈ namesOf v) (key : V × Name)
    (vp : Option V) : k ∈ addName namesOf key vp v := by
  cases vp with
  | none => exact hmem
  | some vp =>
    rw [addName]
    by_cases hv : v = vp
    · subst hv
      rw [update_self]
      exact mem_append_left _ hmem
    · rw [update_of_ne hv]
      exact hmem

theorem self_mem_addName (namesOf : V → List (V × Name)) (key : V × Name) (v : V) :
    key ∈ addName namesOf key (some v) v := by
  rw [addName, update_self]
  exact mem_append_right _ (mem_singleton_self key)

theorem removeKey_of_none (hnone : c.entries.lookup k = none) : c.removeKey k = c := by
  rw [removeKey, hnone]

theorem removeKey_of_some {vp : Option V} {age : Nat} (hsome : c.entries.lookup k = some (vp, age)) :
    c.removeKey k =
      ⟨c.entries.erase k, c.byAge.filter fun x ↦ x.1 ≠ age, dropName c.namesOf k vp, c.nextAge⟩ := by
  rw [removeKey, hsome]

theorem WF.removeKey (h : c.WF) (k : V × Name) : (c.removeKey k).WF := by
  match hk : c.entries.lookup k with
  | none =>
    rw [removeKey_of_none hk]
    exact h
  | some (vp, age) =>
    have hage := (h.ages age k).2 ⟨vp, hk⟩
    rw [removeKey_of_some hk]
    refine ⟨fun k' v hget ↦ ?_, fun a k' ↦ ?_, fun a k₁ k₂ h₁ h₂ ↦ ?_, fun x hx ↦ ?_⟩
    · rw [← removeKey_of_some hk, get_removeKey] at hget
      split at hget
      · cases hget
      · next hne => exact mem_dropName hne (h.names k' v hget) vp
    · -- an entry's age is its own, so that only the age of `k` goes
      rw [mem_filter, h.ages]
      by_cases hk' : k' = k
      · subst hk'
        rw [lookup_erase]
        constructor
        · rintro ⟨⟨v, hv⟩, hne⟩
          cases hk.symm.trans hv
          exact absurd rfl (of_decide_eq_true hne)
        · rintro ⟨v, hv⟩
          cases hv
      · rw [lookup_erase_ne hk']
        refine and_iff_left_of_imp fun hmem ↦ decide_eq_true ?_
        rintro rfl
        exact hk' (h.inj _ _ _ ((h.ages _ _).2 hmem) hage)
    · exact h.inj a k₁ k₂ (mem_filter.1 h₁).1 (mem_filter.1 h₂).1
    · exact h.young x (mem_filter.1 hx).1

theorem WF.removeKeys (h : c.WF) (ks : List (V × Name)) : (c.removeKeys ks).WF := by
  induction ks generalizing c with
  | nil => exact h
  | cons k ks ih => exact ih (h.removeKey k)

theorem WF.evict (h : c.WF) (limit fuel : Nat) : (evict limit fuel c).WF := by
  induction fuel generalizing c with
  | zero => exact h
  | succ fuel ih =>
    rw [NameCache.evict]
    split
    · split
      · exact h
      · exact ih (h.removeKey _)
    · exact h

theorem WF.enter (h : c.WF) (limit : Nat) (dvp : V) (name : Name) (vp : Option V) :
    (c.enter F limit dvp name vp).WF := by
  rw [NameCache.enter]
  split
  · exact h
  · dsimp only
    generalize hkey : F.key dvp name = key
    have h₀ := h.removeKey key
    generalize hc₀ : c.removeKey key = c₀ at h₀
    have h₁ := h₀.evict limit c₀.entries.entries.length
    have hnone : (NameCache.evict limit c₀.entries.entries.length c₀).get key = none := by
      rw [Option.eq_none_iff_forall_ne_some]
      intro v hv
      have hv := get_of_get_evict hv
      rw [← hc₀, get_removeKey, if_pos rfl] at hv
      cases hv
    generalize NameCache.evict limit c₀.entries.entries.length c₀ = c₁ at h₁ hnone
    have hnew : ∀ a k, (a, k) ∈ c₁.byAge → k ≠ key ∧ a ≠ c₁.nextAge + 1 := by
      intro a k hmem
      refine ⟨?_, Nat.ne_of_lt (Nat.lt_succ_of_le (h₁.young _ hmem))⟩
      rintro rfl
      obtain ⟨v, hv⟩ := (h₁.ages a k).1 hmem
      rw [get, hv] at hnone
      cases hnone
    refine ⟨fun k v hget ↦ ?_, fun a k ↦ ?_, fun a k k' hk hk' ↦ ?_, fun x hx ↦ ?_⟩
    · by_cases hk : k = key
      · subst hk
        rw [get, lookup_insert] at hget
        cases hget
        exact self_mem_addName _ _ _
      · rw [get, lookup_insert_ne hk] at hget
        exact mem_addName (h₁.names k v hget) key vp
    · dsimp only
      rw [mem_append, mem_singleton, h₁.ages]
      by_cases hk : k = key
      · subst hk
        have hlook : c₁.entries.lookup k = none := Option.map_eq_none_iff.1 hnone
        rw [lookup_insert, hlook]
        constructor
        · rintro (⟨v, hv⟩ | heq)
          · cases hv
          · cases heq
            exact ⟨vp, rfl⟩
        · rintro ⟨v, hv⟩
          cases hv
          exact Or.inr rfl
      · rw [lookup_insert_ne hk]
        simp [hk]
    · rcases mem_append.1 hk with hk | hk <;> rcases mem_append.1 hk' with hk' | hk'
      · exact h₁.inj a k k' hk hk'
      · cases mem_singleton.1 hk'
        exact absurd rfl (hnew _ _ hk).2
      · cases mem_singleton.1 hk
        exact absurd rfl (hnew _ _ hk').2
      · cases mem_singleton.1 hk
        cases mem_singleton.1 hk'
        rfl
    · rcases mem_append.1 hx with hx | hx
      · exact (h₁.young x hx).trans (Nat.le_succ _)
      · rw [mem_singleton.1 hx]

theorem WF.purgeName (h : c.WF) (dvp : V) (name : Name) : (c.purgeName F dvp name).WF := by
  refine WF.removeKey ?_ _
  split
  · split
    · exact h.removeKeys _
    · exact h
  · exact h

theorem WF.purge (h : c.WF) (vp : V) : (c.purge vp).WF := (h.removeKeys _).removeKeys _

theorem WF.purgeNegative (h : c.WF) (dvp : V) : (c.purgeNegative dvp).WF := h.removeKeys _

theorem get_purge (h : c.WF) {vp : V} {v : Option V} (hget : (c.purge vp).get k = some v) :
    c.get k = some v ∧ v ≠ some vp ∧ k.1 ≠ vp := by
  rw [purge, get_removeKeys] at hget
  obtain ⟨hdir, hget⟩ := of_ite_left hget nofun
  have hdir' : k.1 ≠ vp := fun heq ↦ hdir (mem_keysIn.2 ⟨heq, v, hget, rfl⟩)
  rw [get_removeKeys] at hget
  obtain ⟨hname, hget⟩ := of_ite_left hget nofun
  refine ⟨hget, ?_, hdir'⟩
  rintro rfl
  exact hname (h.names k vp hget)

end WF

end NameCache

end Cache

end OxideBSD.Vfs
