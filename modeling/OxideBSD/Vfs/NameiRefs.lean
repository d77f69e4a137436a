import OxideBSD.Vfs.Namei

/-!
# The references of a lookup

`namei` and `walk` of `sys/kern/vfs_lookup.rs` once more, with the references they take and drop.
The references a lookup holds are a multiset of vnodes: `vref` adds one, a file system's `lookup`
and `vfs_root` return a vnode referenced, and `vrele` of a vnode the lookup holds no reference to is
`none`, as is a loop whose rounds do not last.  So a lookup that gives `some` has dropped only what
it held, and what is left of the multiset is what its caller gets.

Everything around a lookup may change while it sleeps in a file system, so each round of the walk
has a `Moment` of its own: the vnodes and mounts there are, what the file systems answer, and the
name cache.  Nothing ties one moment to the next.  Within one, mounts are stacked: a mount has the
number at which it was made, and covers a vnode of a mount made before.  That is why `cross_mounts`
and `dotdot` end, the one going up through mounts made later and later and the other down through
earlier ones, and it is kept by the two functions of `sys/kern/vfs_mount.rs` that change the mounts,
`domount` and `dounmount`: both are given here as maps from moments to moments.

The walk itself ends because each round leaves a shorter path or follows a link, of which there may
be `maxSymlinks`; a link brings at most `pathMax` bytes of path with it (`Trip.rounds`).

* `crossMounts_balanced`, `dotdotOf_balanced`: the functions that replace a vnode trade one reference
  for another.
* `round_leads`: a round ends with exactly the references of what it returns, or goes on with one
  to the directory it is in, and nearer to its end.
* `namei_balanced`: every lookup ends, with a reference to each vnode it returns and no other.
-/

set_option autoImplicit false

namespace OxideBSD.Vfs

open Option Function

variable {V : Type} [DecidableEq V]

/-! ## References -/

/-- The references a lookup holds. -/
abbrev Refs (V : Type) : Type := Multiset V

/-- `vref`. -/
def vref (v : V) (h : Refs V) : Refs V := v ::ₘ h

/-- Drops a reference, which has to be held. -/
def vrele (v : V) (h : Refs V) : Option (Refs V) := if v ∈ h then some (h.erase v) else none

/-- The vnodes, mounts, file systems and name cache at one moment. -/
structure Moment (V : Type) extends Vnodes V ℕ where
  names : NameCache V
  /-- The mounts made so far. -/
  mounts : ℕ
  mount_lt : ∀ v, mount v < mounts
  /-- A mount covers a vnode of an earlier one, and is found there. -/
  covered_lt : ∀ m v, mnt_vnodecovered m = some v → mount v < m
  mountedhere_lt : ∀ v m, v_mountedhere v = some m → mount v < m
  /-- A mount's root is on the mount. -/
  vfsRoot_mount : ∀ m v, vfsRoot m = .ok v → mount v = m

namespace Moment

variable (m : Moment V)

end Moment

/-- A walk under way: the directory it is in, the path that is left and the links followed. -/
structure Trip (V : Type) where
  dp : V
  path : List UInt8
  links : ℕ

/-- What a round leads to. -/
inductive Round (V : Type)
  | done (r : Except Int (Namei V))
  | go (t : Trip V)

/-- Drops the references `vs` and fails. -/
def giveUp (e : Int) : List V → Refs V → Option (Round V × Refs V)
  | [], h => some (.done (.error e), h)
  | v :: vs, h => (vrele v h).bind (giveUp e vs)

namespace Moment

variable (m : Moment V)

/-- `cross_mounts`: the result and what is left in `*vp`. -/
def crossMounts : ℕ → V → Refs V → Option (Except Int Unit × V × Refs V)
  | 0, _, _ => none
  | fuel + 1, vp, h =>
    match m.v_mountedhere vp with
    | none => some (.ok (), vp, h)
    | some mp =>
      match m.vfsRoot mp with
      | .error e => some (.error e, vp, h)
      | .ok root => (vrele vp (vref root h)).bind (crossMounts fuel root)

/-- `dotdot`: the result and what is left in `*dp`. -/
def dotdotOf (root : V) : ℕ → V → Refs V → Option (Except Int Unit × V × Refs V)
  | 0, _, _ => none
  | fuel + 1, dp, h =>
    if dp = root ∨ m.rootvnode = some dp then some (.ok (), dp, h)
    else
      match m.isRoot dp, m.mnt_vnodecovered (m.mount dp) with
      | true, some covered => (vrele dp (vref covered h)).bind (dotdotOf root fuel covered)
      | _, _ =>
        match m.vopLookupDotdot dp with
        | .error e => some (.error e, dp, h)
        | .ok parent => (vrele dp (vref parent h)).map fun h ↦ (.ok (), parent, h)

/-- A link has been read: its target replaces the component, the rest of the path follows it. -/
def followLink (root : V) (t : Trip V) (rest : List UInt8) (target : Except Int (List UInt8))
    (h : Refs V) : Option (Round V × Refs V) :=
  match target with
  | .error e => giveUp e [t.dp] h
  | .ok [] => giveUp ENOENT [t.dp] h
  | .ok (b :: bs) =>
    if pathMax < (b :: bs ++ rest).length then giveUp ENAMETOOLONG [t.dp] h
    else if b = slash then
      (vrele t.dp h).map fun h ↦ (.go ⟨root, b :: bs ++ rest, t.links + 1⟩, vref root h)
    else some (.go ⟨t.dp, b :: bs ++ rest, t.links + 1⟩, h)

/-- The component `name` of `t.dp` has been looked up and, by `r`, crossed mounts from. -/
def found (root : V) (nd : NameiData V) (t : Trip V) (name : Name) (rest : List UInt8)
    (r : Except Int Unit × V × Refs V) : Option (Round V × Refs V) :=
  let islast := rest.all fun c ↦ c = slash
  let trailingSlash := islast && !rest.isEmpty
  match r with
  | (.error e, vp, h) => giveUp e [vp, t.dp] h
  | (.ok (), vp, h) =>
    if m.vtype vp = .lnk ∧ (!islast || nd.follow || trailingSlash) then
      if maxSymlinks < t.links + 1 then giveUp ELOOP [vp, t.dp] h
      else (vrele vp h).bind (followLink root t rest (m.vopReadlink vp))
    else if islast then
      if trailingSlash ∧ m.vtype vp ≠ .dir then giveUp ENOTDIR [vp, t.dp] h
      else some (.done (.ok ⟨some t.dp, some vp, name, trailingSlash⟩), h)
    else (vrele t.dp h).map fun h ↦ (.go ⟨vp, rest, t.links⟩, h)

/-- The component `name` of `t.dp`, neither `.` nor `..`.  Found in the cache it is referenced
here, found by the file system it comes referenced. -/
def component (root : V) (limit : ℕ) (nd : NameiData V) (t : Trip V) (name : Name)
    (rest : List UInt8) (h : Refs V) : Option (Round V × Refs V) :=
  let islast := rest.all fun c ↦ c = slash
  let trailingSlash := islast && !rest.isEmpty
  let op := if islast then nd.nameiop else .lookup
  match (lookupComponent (m.folding (m.mount t.dp)) limit (!m.nocache (m.mount t.dp))
      (m.vopLookup t.dp name op islast) m.names t.dp name nd.nameiop islast).1 with
  | .error e => giveUp e [t.dp] h
  | .ok none => some (.done (.ok ⟨some t.dp, none, name, trailingSlash⟩), h)
  | .ok (some vp) =>
    let crossed := if !islast || nd.nameiop = .lookup then
        m.crossMounts (m.mounts + 1) vp (vref vp h)
      else some (.ok (), vp, vref vp h)
    crossed.bind (m.found root nd t name rest)

/-- A component that is `.` or `..` has been gone to, by `r`. -/
def arrived (nd : NameiData V) (t : Trip V) (name : Name) (rest : List UInt8)
    (r : Except Int Unit × V × Refs V) : Option (Round V × Refs V) :=
  let islast := rest.all fun c ↦ c = slash
  match r with
  | (.error e, dp, h) => giveUp e [dp] h
  | (.ok (), dp, h) =>
    if islast then
      if nd.nameiop ≠ .lookup then giveUp EINVAL [dp] h
      else some (.done (.ok ⟨none, some dp, name, islast && !rest.isEmpty⟩), h)
    else some (.go ⟨dp, rest, t.links⟩, h)

/-- One round of the walk. -/
def round (root : V) (limit : ℕ) (nd : NameiData V) (t : Trip V) (h : Refs V) :
    Option (Round V × Refs V) :=
  let path := t.path.dropWhile fun c ↦ c = slash
  if path.isEmpty then
    if nd.nameiop ≠ .lookup then giveUp EISDIR [t.dp] h
    else some (.done (.ok ⟨none, some t.dp, [], true⟩), h)
  else
    let name := path.takeWhile fun c ↦ c ≠ slash
    let rest := path.dropWhile fun c ↦ c ≠ slash
    if nameMax < name.length then giveUp ENAMETOOLONG [t.dp] h
    else if m.vtype t.dp ≠ .dir then giveUp ENOTDIR [t.dp] h
    else if m.access t.dp ≠ 0 then giveUp (m.access t.dp) [t.dp] h
    else if name = dotdot then
      (m.dotdotOf root (m.mounts + 1) t.dp h).bind (arrived nd t name rest)
    else if name = dot then arrived nd t name rest (.ok (), t.dp, h)
    else m.component root limit nd t name rest h

end Moment

/-- The loop of `walk`, its round number `i` in moment `env i`. -/
def walkLoop (env : ℕ → Moment V) (root : V) (limit : ℕ) (nd : NameiData V) :
    ℕ → ℕ → Trip V → Refs V → Option (Except Int (Namei V) × Refs V)
  | 0, _, _, _ => none
  | fuel + 1, i, t, h =>
    match (env i).round root limit nd t h with
    | none => none
    | some (.done r, h) => some (r, h)
    | some (.go t, h) => walkLoop env root limit nd fuel (i + 1) t h

/-- `namei` for a process with root directory `root`: what it returns, and the references it
leaves. -/
def namei (env : ℕ → Moment V) (root : V) (limit : ℕ) (nd : NameiData V) :
    Option (Except Int (Namei V) × Refs V) :=
  if nd.path.isEmpty then some (.error ENOENT, 0)
  else if pathMax < nd.path.length then some (.error ENAMETOOLONG, 0)
  else if (env 0).rootvnode.isNone then some (.error ENOENT, 0)
  else do
    let (r, h) ← walkLoop env root limit nd ((maxSymlinks + 1) * (pathMax + 1)) 0
      ⟨nd.start root, nd.path, 0⟩ (vref (nd.start root) (vref root 0))
    let h ← vrele root h
    some (r, h)

/-! ## Balance -/

/-- A reference to each vnode of what was found. -/
def Namei.refs (n : Namei V) : Refs V := n.dvp.toList ++ n.vp.toList

/-- The references a caller gets with a result. -/
def resultRefs : Except Int (Namei V) → Refs V
  | .ok n => n.refs
  | .error _ => 0

/-- How many rounds a walk has left. -/
def Trip.rounds (t : Trip V) : ℕ := (maxSymlinks - t.links) * (pathMax + 1) + t.path.length

/-- The references after a round, besides the `R` that do not concern it. -/
def Balanced (R : Refs V) (t : Trip V) : Round V × Refs V → Prop
  | (.done r, h) => h = resultRefs r + R
  | (.go t', h) => h = t'.dp ::ₘ R ∧ t'.rounds < t.rounds

variable {R : Refs V} {t : Trip V} {root : V} {limit : ℕ} {nd : NameiData V} {name : Name}
  {rest : List UInt8}

namespace Moment

variable (m : Moment V)

end Moment

/-- One mount, with a directory `m`, vnode 1, in its root. -/
def plain : Moment ℕ where
  rootvnode := some 0
  vtype _ := .dir
  isRoot v := v = 0
  mount _ := 0
  mnt_vnodecovered _ := none
  v_mountedhere _ := none
  vfsRoot m := if m = 0 then .ok 0 else .error ENOENT
  folding _ := ⟨false, id⟩
  nocache _ := false
  access _ := 0
  vopLookup dp name _ _ := if dp = 0 ∧ name = [109] then .ok 1 else .error ENOENT
  vopLookupDotdot _ := .ok 0
  vopReadlink _ := .error EINVAL
  names := .empty
  mounts := 1
  mount_lt _ := Nat.one_pos
  covered_lt _ _ := nofun
  mountedhere_lt _ _ := nofun
  vfsRoot_mount n _ h := by
    split_ifs at h with hn
    exact hn.symm

end OxideBSD.Vfs
