import OxideBSD.Lib.Forest
import OxideBSD.Vfs.NameCache

/-!
# Path lookup

`sys/kern/vfs_lookup.rs`: `namei` takes a path to a vnode, component by component through each
directory's `lookup`, the name cache in front.  `..` at the root of a mount goes down to the directory
the mount covers first, `..` at the process's root stays there, a directory with a mount on it
continues at the mount's root, and symbolic links put their target in the place of their component.

A lookup is modelled over a fixed set of vnodes (`Vnodes`): what is mounted where, and what each file
system answers.  References are left out.  The functions return, with their result, every vnode
`dp` and `vp` were set to on the way, and `none` when their fuel does not last.

* `namei_done`: over a tree of mounts no loop goes on for ever.
* `namei_confined`: over a tree of mounts, a lookup that starts at or below the process's root visits
  only vnodes at or below it.
-/

set_option autoImplicit false

namespace OxideBSD.Vfs

open List

def ENOENT : Int := 2
def ENOTDIR : Int := 20
def EISDIR : Int := 21
def EINVAL : Int := 22
def ENAMETOOLONG : Int := 36
def ELOOP : Int := 40
/-- A missing last component that the caller may create. -/
def EJUSTRETURN : Int := -2

def pathMax : Nat := 4096
def nameMax : Nat := 255
def maxSymlinks : Nat := 32

/-- `b'/'`. -/
def slash : UInt8 := 47

/-- A component leaves a shorter path. -/
theorem length_rest_lt {p path : List UInt8} {b : UInt8}
    (hpath : p.dropWhile (fun c ↦ c = slash) = b :: path) :
    ((b :: path).dropWhile fun c ↦ c ≠ slash).length < p.length := by
  have hsuffix := dropWhile_suffix (fun c ↦ decide (c = slash)) (l := p)
  have hhead := head?_dropWhile_not (fun c ↦ decide (c = slash)) p
  rw [hpath] at hsuffix hhead
  have hb : b ≠ slash := of_decide_eq_false hhead
  rw [dropWhile_cons, if_pos (decide_eq_true hb)]
  have hlen := (dropWhile_suffix (fun c ↦ decide (c ≠ slash)) (l := path)).length_le
  exact (Nat.lt_succ_of_le hlen).trans_le hsuffix.length_le

/-- `v_type`. -/
inductive VType
  | non
  | reg
  | dir
  | blk
  | chr
  | lnk
  | sock
  | fifo
  | bad
  deriving DecidableEq

/-- What the caller means to do with the last component. -/
inductive NameiOp
  | lookup
  | create
  | delete
  | rename
  deriving DecidableEq

/-- The vnodes there are, the mounts they are on, and what the file systems answer one caller. -/
structure Vnodes (V M : Type) where
  /-- The system's root, once one is mounted. -/
  rootvnode : Option V
  vtype : V → VType
  /-- `VV_ROOT`. -/
  isRoot : V → Bool
  mount : V → M
  mnt_vnodecovered : M → Option V
  v_mountedhere : V → Option M
  vfsRoot : M → Except Int V
  folding : M → Folding
  nocache : M → Bool
  /-- `vop_access` for `VEXEC`; `0` when granted. -/
  access : V → Int
  vopLookup : V → Name → NameiOp → Bool → Except Int V
  vopLookupDotdot : V → Except Int V
  vopReadlink : V → Except Int (List UInt8)

section Lookup

variable {V M : Type} [DecidableEq V]

namespace Vnodes

variable (W : Vnodes V M)

/-! ## Crossing mounts -/

/-- Goes from `vp` to the root of the mount stacked on it, as many as there are.  The vnodes gone to
are put in front of `seen`. -/
def crossMounts : Nat → V → List V → Option (Except Int V × List V)
  | 0, _, _ => none
  | fuel + 1, vp, seen =>
    match W.v_mountedhere vp with
    | none => some (.ok vp, seen)
    | some mp =>
      match W.vfsRoot mp with
      | .error e => some (.error e, seen)
      | .ok root => crossMounts fuel root (root :: seen)

/-- `..` of `dp`: at a mount's root, first down to the directory it covers.  At the process's root,
`dp` itself. -/
def dotdotOf (root : V) : Nat → V → List V → Option (Except Int V × List V)
  | 0, _, _ => none
  | fuel + 1, dp, seen =>
    if dp = root ∨ W.rootvnode = some dp then some (.ok dp, seen)
    else
      match W.isRoot dp, W.mnt_vnodecovered (W.mount dp) with
      | true, some covered => dotdotOf root fuel covered (covered :: seen)
      | _, _ =>
        match W.vopLookupDotdot dp with
        | .error e => some (.error e, seen)
        | .ok parent => some (.ok parent, parent :: seen)

end Vnodes

/-- One component in `dp`, of which the file system says `answer`: the cache, then the file system.
`none` for a missing name. -/
def lookupComponent (F : Folding) (limit : Nat) (cache : Bool) (answer : Except Int V) (c : NameCache V)
    (dp : V) (name : Name) (nameiop : NameiOp) (islast : Bool) :
    Except Int (Option V) × NameCache V :=
  match if cache then c.lookup F dp name else none with
  | some (.found vp) => (.ok (some vp), c)
  | some .missing => if nameiop = .lookup ∨ ¬ islast then (.error ENOENT, c) else (.ok none, c)
  | none =>
    match answer with
    | .ok vp => (.ok (some vp), if cache then c.enter F limit dp name (some vp) else c)
    | .error e =>
      if (e = EJUSTRETURN ∨ e = ENOENT) ∧ islast ∧ nameiop ≠ .lookup then (.ok none, c)
      else if e = ENOENT then
        (.error ENOENT,
          if cache ∧ (nameiop = .lookup ∨ ¬ islast) then c.enter F limit dp name none else c)
      else (.error e, c)

/-- The result of a component that the cache knows. -/
def Hit.result (op : NameiOp) (islast : Bool) : Hit V → Except Int (Option V)
  | .found vp => .ok (some vp)
  | .missing => if op = .lookup ∨ ¬ islast then .error ENOENT else .ok none

section Component

variable {F : Folding} {limit : Nat} {cache : Bool} {answer : Except Int V} {c : NameCache V} {dp : V}
  {name : Name} {op : NameiOp} {last : Bool}

variable (F limit cache answer c dp name op last) in
/-- What a component's lookup does to the cache: at most it enters what the file system said. -/
theorem lookupComponent_cache :
    (lookupComponent F limit cache answer c dp name op last).2 = c ∨
    (∃ v, answer = .ok v ∧ (lookupComponent F limit cache answer c dp name op last).2 =
      c.enter F limit dp name (some v)) ∨
    answer = .error ENOENT ∧ (lookupComponent F limit cache answer c dp name op last).2 =
      c.enter F limit dp name none := by
  unfold lookupComponent
  split
  · exact Or.inl rfl
  · split
    · exact Or.inl rfl
    · exact Or.inl rfl
  · split
    · next v =>
      cases cache with
      | false => exact Or.inl rfl
      | true => exact Or.inr (Or.inl ⟨v, rfl, rfl⟩)
    · next e =>
      split
      · exact Or.inl rfl
      · split
        · next henoent =>
          subst henoent
          split
          · exact Or.inr (Or.inr ⟨rfl, rfl⟩)
          · exact Or.inl rfl
        · exact Or.inl rfl

/-- What the cache knows, the file system is not asked. -/
theorem lookupComponent_of_hit {hit : Hit V} (hhit : c.lookup F dp name = some hit) :
    lookupComponent F limit true answer c dp name op last = (hit.result op last, c) := by
  unfold lookupComponent
  rw [if_pos rfl, hhit]
  cases hit with
  | found vp => rfl
  | missing =>
    rw [Hit.result]
    dsimp only
    split
    · rfl
    · rfl

/-- Where the vnode of a component comes from. -/
theorem lookupComponent_found {v : V}
    (h : (lookupComponent F limit cache answer c dp name op last).1 = .ok (some v)) :
    c.lookup F dp name = some (.found v) ∨ answer = .ok v := by
  unfold lookupComponent at h
  split at h
  · next vp hhit =>
    cases h
    cases cache with
    | false => cases hhit
    | true => exact Or.inl hhit
  · split at h
    · cases h
    · cases h
  · split at h
    · cases h
      exact Or.inr rfl
    · split at h
      · cases h
      · split at h
        · cases h
        · cases h

end Component

/-! ## The walk -/

/-- What `namei` is asked. -/
structure NameiData (V : Type) where
  path : List UInt8
  nameiop : NameiOp
  follow : Bool
  /-- Where a relative path starts. -/
  startdir : V

/-- Where a walk starts: an absolute path at the process's root. -/
def NameiData.start (nd : NameiData V) (root : V) : V :=
  if nd.path.head? = some slash then root else nd.startdir

/-- What `namei` found. -/
structure Namei (V : Type) where
  /-- The directory holding the last component, if the path has one. -/
  dvp : Option V
  vp : Option V
  last : Name
  trailingSlash : Bool

/-- A walk under way: the directory it is in, the path that is left, the links followed, the name
cache, and the vnodes visited so far. -/
structure Walk (V : Type) where
  dp : V
  path : List UInt8
  links : Nat
  cache : NameCache V
  seen : List V

/-- How a walk ended: what it found, the name cache, and the vnodes it visited. -/
structure Walked (V : Type) where
  result : Except Int (Namei V)
  cache : NameCache V
  seen : List V

namespace Vnodes

variable (W : Vnodes V M)

/-- The walk from component `name` of directory `w.dp` on, which has been looked up and, by
`r`, crossed mounts from; `rest` is the path after it. -/
def walkFound (root : V) (nd : NameiData V) (w : Walk V) (name : Name) (rest : List UInt8)
    (c : NameCache V) (r : Except Int V × List V) : Walked V ⊕ Walk V :=
  let islast := rest.all fun c ↦ c = slash
  let trailingSlash := islast && !rest.isEmpty
  match r with
  | (.error e, seen) => .inl ⟨.error e, c, seen⟩
  | (.ok vp, seen) =>
    if W.vtype vp = .lnk ∧ (!islast || nd.follow || trailingSlash) then
      if maxSymlinks < w.links + 1 then .inl ⟨.error ELOOP, c, seen⟩
      else
        match W.vopReadlink vp with
        | .error e => .inl ⟨.error e, c, seen⟩
        | .ok [] => .inl ⟨.error ENOENT, c, seen⟩
        | .ok (t :: ts) =>
          -- the target replaces the component; the rest of the path follows it
          if pathMax < (t :: ts ++ rest).length then .inl ⟨.error ENAMETOOLONG, c, seen⟩
          else
            let dp := if t = slash then root else w.dp
            .inr ⟨dp, t :: ts ++ rest, w.links + 1, c, dp :: seen⟩
    else if islast then
      if trailingSlash ∧ W.vtype vp ≠ .dir then .inl ⟨.error ENOTDIR, c, seen⟩
      else .inl ⟨.ok ⟨some w.dp, some vp, name, trailingSlash⟩, c, seen⟩
    else .inr ⟨vp, rest, w.links, c, seen⟩

/-- The walk on to the component `name` of directory `w.dp`, neither `.` nor `..`; `rest` is the path
after it. -/
def walkName (root : V) (limit : Nat) (nd : NameiData V) (w : Walk V) (name : Name)
    (rest : List UInt8) (fuel : Nat) : Option (Walked V ⊕ Walk V) :=
  let islast := rest.all fun c ↦ c = slash
  let trailingSlash := islast && !rest.isEmpty
  let op := if islast then nd.nameiop else .lookup
  match lookupComponent (W.folding (W.mount w.dp)) limit (!W.nocache (W.mount w.dp))
      (W.vopLookup w.dp name op islast) w.cache w.dp name nd.nameiop islast with
  | (.error e, c) => some (.inl ⟨.error e, c, w.seen⟩)
  | (.ok none, c) => some (.inl ⟨.ok ⟨some w.dp, none, name, trailingSlash⟩, c, w.seen⟩)
  | (.ok (some vp), c) =>
    -- a create, delete or rename works on the name in `dp`, not on what is mounted there
    let crossed := if !islast || nd.nameiop = .lookup then W.crossMounts fuel vp (vp :: w.seen)
      else some (.ok vp, vp :: w.seen)
    crossed.map (W.walkFound root nd w name rest c)

/-- One round of the walk. -/
def walkStep (root : V) (limit : Nat) (nd : NameiData V) (w : Walk V) (fuel : Nat) :
    Option (Walked V ⊕ Walk V) :=
  let path := w.path.dropWhile fun c ↦ c = slash
  if path.isEmpty then
    if nd.nameiop ≠ .lookup then some (.inl ⟨.error EISDIR, w.cache, w.seen⟩)
    else some (.inl ⟨.ok ⟨none, some w.dp, [], true⟩, w.cache, w.seen⟩)
  else
    let name := path.takeWhile fun c ↦ c ≠ slash
    let rest := path.dropWhile fun c ↦ c ≠ slash
    let islast := rest.all fun c ↦ c = slash
    let trailingSlash := islast && !rest.isEmpty
    if nameMax < name.length then some (.inl ⟨.error ENAMETOOLONG, w.cache, w.seen⟩)
    else if W.vtype w.dp ≠ .dir then some (.inl ⟨.error ENOTDIR, w.cache, w.seen⟩)
    else if W.access w.dp ≠ 0 then some (.inl ⟨.error (W.access w.dp), w.cache, w.seen⟩)
    else if name = dot ∨ name = dotdot then
      match if name = dotdot then W.dotdotOf root fuel w.dp w.seen else some (.ok w.dp, w.seen) with
      | none => none
      | some (.error e, seen) => some (.inl ⟨.error e, w.cache, seen⟩)
      | some (.ok dp, seen) =>
        if islast then
          if nd.nameiop ≠ .lookup then some (.inl ⟨.error EINVAL, w.cache, seen⟩)
          else some (.inl ⟨.ok ⟨none, some dp, name, trailingSlash⟩, w.cache, seen⟩)
        else some (.inr { w with dp := dp, path := rest, seen := seen })
    else W.walkName root limit nd w name rest fuel

/-- The loop of `walk`, with `inner` rounds for the loops over mounts inside. -/
def walkLoop (root : V) (limit : Nat) (nd : NameiData V) (inner : Nat) :
    Nat → Walk V → Option (Walked V)
  | 0, _ => none
  | fuel + 1, w =>
    match W.walkStep root limit nd w inner with
    | none => none
    | some (.inl r) => some r
    | some (.inr w') => walkLoop root limit nd inner fuel w'

/-- `namei` for a process with root directory `root`. -/
def namei (root : V) (limit : Nat) (nd : NameiData V) (c : NameCache V) (fuel : Nat) :
    Option (Walked V) :=
  if nd.path.isEmpty then some ⟨.error ENOENT, c, []⟩
  else if pathMax < nd.path.length then some ⟨.error ENAMETOOLONG, c, []⟩
  else if W.rootvnode.isNone then some ⟨.error ENOENT, c, []⟩
  else W.walkLoop root limit nd fuel fuel ⟨nd.start root, nd.path, 0, c, [nd.start root]⟩

/-! ## Trees of mounts -/

/-- `b` is directly below `a`: an entry of it, or the root of the mount on it. -/
inductive Under (a b : V) : Prop
  | entry (name : Name) (op : NameiOp) (last : Bool) (hname : name ≠ dot ∧ name ≠ dotdot)
      (h : W.vopLookup a name op last = .ok b)
  | mounted (mp : M) (hmp : W.v_mountedhere a = some mp) (h : W.vfsRoot mp = .ok b)

/-- The mounts are a tree: a directory is in one place, `up` of it, which is where `..` of it and the
directory that its mount covers lead.  Other files may have any number of names. -/
structure IsTree (up : V → Option V) (depth : V → Nat) (height : Nat) : Prop where
  under : ∀ a b, W.Under a b → W.vtype b = .dir → up b = some a
  covered : ∀ v c, W.isRoot v = true → W.mnt_vnodecovered (W.mount v) = some c → up v = some c
  dotdot : ∀ v p, W.vtype v = .dir → W.vopLookupDotdot v = .ok p → up v = some p ∨ p = v
  mounted : ∀ v mp r, W.v_mountedhere v = some mp → W.vfsRoot mp = .ok r → W.vtype r = .dir
  dir : ∀ v p, up v = some p → W.vtype p = .dir
  deeper : ∀ v p, up v = some p → depth p < depth v
  height : ∀ v, depth v ≤ height

/-- The cached names are names of the tree. -/
def Cached (c : NameCache V) : Prop := ∀ k v, c.get k = some (some v) → W.Under k.1 v

section Confined

variable {W} {up : V → Option V} {depth : V → Nat} {height : Nat} {root : V} {fuel : Nat}
  {seen : List V} {w : Walk V}

omit [DecidableEq V] in
/-- `..` leaves what is below `root` only at `root`. -/
theorem IsTree.up_below (hW : W.IsTree up depth height) {v p : V} (hdir : W.vtype v = .dir)
    (hv : Below W.Under root v) (hne : v ≠ root) (hp : up v = some p) : Below W.Under root p := by
  refine hv.parent hne fun x hx ↦ ?_
  exact Option.some.inj ((hW.under x v hx hdir).symm.trans hp)

/-- Every vnode of `seen`, and the one gone to, are below `root`. -/
def Stays (W : Vnodes V M) (root : V) (r : Except Int V × List V) : Prop :=
  (∀ v ∈ r.2, Below W.Under root v) ∧ ∀ v, r.1 = .ok v → Below W.Under root v

omit [DecidableEq V] in
theorem crossMounts_stays (hW : W.IsTree up depth height) {vp : V}
    (hfuel : height < depth vp + fuel) (hvp : Below W.Under root vp)
    (hseen : ∀ v ∈ seen, Below W.Under root v) :
    ∃ r, W.crossMounts fuel vp seen = some r ∧ Stays W root r := by
  induction fuel generalizing vp seen with
  | zero => exact absurd (hW.height vp) (Nat.not_le.2 hfuel)
  | succ fuel ih =>
    rw [crossMounts]
    split
    · refine ⟨_, rfl, hseen, ?_⟩
      rintro v ⟨⟩
      exact hvp
    · next mp hmp =>
      split
      · exact ⟨_, rfl, hseen, fun v hv ↦ by cases hv⟩
      · next r hr =>
        have hunder : W.Under vp r := .mounted mp hmp hr
        have hdeep := hW.deeper r vp (hW.under vp r hunder (hW.mounted vp mp r hmp hr))
        have hbelow := hvp.child hunder
        exact ih (by omega) hbelow (forall_mem_cons.2 ⟨hbelow, hseen⟩)

theorem dotdotOf_stays (hW : W.IsTree up depth height) {dp : V} (hfuel : depth dp < fuel)
    (hdir : W.vtype dp = .dir) (hdp : Below W.Under root dp)
    (hseen : ∀ v ∈ seen, Below W.Under root v) :
    ∃ r, W.dotdotOf root fuel dp seen = some r ∧ Stays W root r := by
  induction fuel generalizing dp seen with
  | zero => exact absurd hfuel (Nat.not_lt_zero _)
  | succ fuel ih =>
    rw [dotdotOf]
    by_cases hstop : dp = root ∨ W.rootvnode = some dp
    · rw [if_pos hstop]
      refine ⟨_, rfl, hseen, ?_⟩
      rintro v ⟨⟩
      exact hdp
    · rw [if_neg hstop]
      have hne : dp ≠ root := fun heq ↦ hstop (Or.inl heq)
      split
      · next covered hroot hcovered =>
        have hup := hW.covered dp covered hroot hcovered
        have hbelow := hW.up_below hdir hdp hne hup
        have hdeep := hW.deeper dp covered hup
        exact ih (by omega) (hW.dir dp covered hup) hbelow (forall_mem_cons.2 ⟨hbelow, hseen⟩)
      · split
        · exact ⟨_, rfl, hseen, nofun⟩
        · next p hp =>
          have hbelow : Below W.Under root p := by
            rcases hW.dotdot dp p hdir hp with hup | rfl
            · exact hW.up_below hdir hdp hne hup
            · exact hdp
          refine ⟨_, rfl, forall_mem_cons.2 ⟨hbelow, hseen⟩, ?_⟩
          rintro v ⟨⟩
          exact hbelow

/-- A component's vnode is below the directory, and the cache stays within the tree. -/
theorem lookupComponent_under (F : Folding) (limit : Nat) (cache : Bool) {answer : Except Int V}
    {c : NameCache V} {dp : V} (name : Name) (op : NameiOp) (last : Bool) (hc : W.Cached c)
    (hanswer : ∀ v, answer = .ok v → W.Under dp v) :
    W.Cached (lookupComponent F limit cache answer c dp name op last).2 ∧ ∀ v,
      (lookupComponent F limit cache answer c dp name op last).1 = .ok (some v) → W.Under dp v := by
  refine ⟨?_, fun v hv ↦ ?_⟩
  · rcases lookupComponent_cache F limit cache answer c dp name op last with h | ⟨v, hv, h⟩ | ⟨-, h⟩
    · rw [h]
      exact hc
    · rw [h]
      intro k v' hget
      rcases NameCache.get_enter hget with ⟨rfl, heq⟩ | hget
      · cases heq
        exact hanswer v hv
      · exact hc k v' hget
    · rw [h]
      intro k v' hget
      rcases NameCache.get_enter hget with ⟨-, heq⟩ | hget
      · cases heq
      · exact hc k v' hget
  · rcases lookupComponent_found hv with hhit | hok
    · rw [NameCache.lookup_eq] at hhit
      obtain ⟨o, ho, heq⟩ := Option.map_eq_some_iff.1 hhit
      cases o with
      | none => cases heq
      | some v' =>
        cases heq
        exact hc _ _ ho
    · exact hanswer v hok

/-- What a walk under way keeps to. -/
structure Confined (W : Vnodes V M) (root : V) (w : Walk V) : Prop where
  dp : Below W.Under root w.dp
  seen : ∀ v ∈ w.seen, Below W.Under root v
  cached : W.Cached w.cache

/-- Everything a walk visited and what it found is below `root`. -/
structure EndsBelow (W : Vnodes V M) (root : V) (r : Walked V) : Prop where
  seen : ∀ v ∈ r.seen, Below W.Under root v
  vp : ∀ f v, r.result = .ok f → f.vp = some v → Below W.Under root v
  dvp : ∀ f v, r.result = .ok f → f.dvp = some v → Below W.Under root v

omit [DecidableEq V] in
theorem endsBelow_error (hseen : ∀ v ∈ seen, Below W.Under root v) (e : Int) (c : NameCache V) :
    W.EndsBelow root ⟨.error e, c, seen⟩ :=
  ⟨hseen, fun f v h ↦ (by cases h), fun f v h ↦ (by cases h)⟩

/-- How many rounds a walk has left. -/
def Walk.rounds (w : Walk V) : Nat := (maxSymlinks - w.links) * (pathMax + 1) + w.path.length

omit [DecidableEq V] in
/-- A link followed makes up for the path its target brings. -/
theorem rounds_link {w' : Walk V} (hlinks : w.links + 1 ≤ maxSymlinks)
    (hpath : w'.path.length ≤ pathMax) (hw' : w'.links = w.links + 1 := by rfl) :
    Walk.rounds w' < Walk.rounds w := by
  obtain ⟨k, hk⟩ := Nat.exists_eq_add_of_le hlinks
  have hleft : maxSymlinks - w.links = k + 1 := by omega
  have hleft' : maxSymlinks - w'.links = k := by omega
  rw [Walk.rounds, Walk.rounds, hleft, hleft', Nat.succ_mul]
  omega

/-- What one round leads to: an end below `root`, or a walk that is closer to one. -/
def Proceeds (W : Vnodes V M) (root : V) (w : Walk V) : Walked V ⊕ Walk V → Prop
  | .inl r => W.EndsBelow root r
  | .inr w' => W.Confined root w' ∧ Walk.rounds w' < Walk.rounds w

theorem walkFound_proceeds (nd : NameiData V) (hw : W.Confined root w) (name : Name)
    {rest : List UInt8} (hrest : rest.length < w.path.length) {c : NameCache V} (hc : W.Cached c)
    {r : Except Int V × List V} (hr : W.Stays root r) :
    W.Proceeds root w (W.walkFound root nd w name rest c r) := by
  obtain ⟨r, seen⟩ := r
  obtain ⟨hseen, hvp⟩ := hr
  cases r with
  | error e => exact endsBelow_error hseen e c
  | ok vp =>
    replace hvp := hvp vp rfl
    rw [walkFound]
    split_ifs with hlink hloop hlast hslash
    · exact endsBelow_error hseen _ c
    · split
      · exact endsBelow_error hseen _ c
      · exact endsBelow_error hseen _ c
      · next t ts _ =>
        by_cases hlong : pathMax < (t :: ts ++ rest).length
        · rw [if_pos hlong]
          exact endsBelow_error hseen _ c
        · rw [if_neg hlong]
          have hdp : Below W.Under root (if t = slash then root else w.dp) := by
            split
            · exact Below.refl root
            · exact hw.dp
          exact ⟨⟨hdp, forall_mem_cons.2 ⟨hdp, hseen⟩, hc⟩,
            rounds_link (Nat.not_lt.1 hloop) (Nat.not_lt.1 hlong)⟩
    · exact endsBelow_error hseen _ c
    · refine ⟨hseen, ?_, ?_⟩
      · rintro f v ⟨⟩ ⟨⟩
        exact hvp
      · rintro f v ⟨⟩ ⟨⟩
        exact hw.dp
    · exact ⟨⟨hvp, hseen, hc⟩, Nat.add_lt_add_left hrest _⟩

theorem walkName_proceeds (hW : W.IsTree up depth height) (limit : Nat) (nd : NameiData V)
    (hw : W.Confined root w) {name : Name} (hname : name ≠ dot ∧ name ≠ dotdot) {rest : List UInt8}
    (hrest : rest.length < w.path.length) (hfuel : height < fuel) :
    ∃ o, W.walkName root limit nd w name rest fuel = some o ∧ W.Proceeds root w o := by
  have hanswer : ∀ op last v, W.vopLookup w.dp name op last = .ok v → W.Under w.dp v :=
    fun op last v h ↦ .entry name op last hname h
  rw [walkName]
  generalize hlast : rest.all (fun c ↦ c = slash) = islast
  generalize (if islast then nd.nameiop else .lookup) = op
  obtain ⟨hcached, hunder⟩ := lookupComponent_under (W.folding (W.mount w.dp)) limit
    (!W.nocache (W.mount w.dp)) name nd.nameiop islast hw.cached (hanswer op islast)
  revert hcached hunder
  generalize lookupComponent _ limit _ _ w.cache w.dp name nd.nameiop islast = r
  intro hcached hunder
  split
  · exact ⟨_, rfl, endsBelow_error hw.seen _ _⟩
  · refine ⟨_, rfl, hw.seen, ?_, ?_⟩
    · rintro f v ⟨⟩ ⟨⟩
    · rintro f v ⟨⟩ ⟨⟩
      exact hw.dp
  · next vp c =>
    have hvp : Below W.Under root vp := hw.dp.child (hunder vp rfl)
    have hseen : ∀ v ∈ vp :: w.seen, Below W.Under root v := forall_mem_cons.2 ⟨hvp, hw.seen⟩
    split
    · obtain ⟨r, hr, hstays⟩ := crossMounts_stays hW (show height < depth vp + fuel by omega) hvp hseen
      rw [hr]
      exact ⟨_, rfl, walkFound_proceeds nd hw name hrest hcached hstays⟩
    · refine ⟨_, rfl, walkFound_proceeds nd hw name hrest hcached ⟨hseen, ?_⟩⟩
      rintro v ⟨⟩
      exact hvp

theorem walkStep_proceeds (hW : W.IsTree up depth height) (limit : Nat) (nd : NameiData V)
    (hw : W.Confined root w) (hfuel : height < fuel) :
    ∃ o, W.walkStep root limit nd w fuel = some o ∧ W.Proceeds root w o := by
  rw [walkStep]
  generalize hpath : w.path.dropWhile (fun c ↦ c = slash) = path
  cases path with
  | nil =>
    rw [isEmpty_nil, if_pos rfl]
    split
    · exact ⟨_, rfl, endsBelow_error hw.seen _ _⟩
    · refine ⟨_, rfl, hw.seen, ?_, ?_⟩
      · rintro f v ⟨⟩ ⟨⟩
        exact hw.dp
      · rintro f v ⟨⟩ ⟨⟩
  | cons b path =>
    have hrest := length_rest_lt hpath
    rw [isEmpty_cons, if_neg Bool.false_ne_true]
    generalize (b :: path).takeWhile (fun c ↦ c ≠ slash) = name
    by_cases hlong : nameMax < name.length
    · rw [if_pos hlong]
      exact ⟨_, rfl, endsBelow_error hw.seen _ _⟩
    rw [if_neg hlong]
    by_cases hdir : W.vtype w.dp = .dir
    swap
    · rw [if_pos hdir]
      exact ⟨_, rfl, endsBelow_error hw.seen _ _⟩
    rw [if_neg (not_not.2 hdir)]
    by_cases haccess : W.access w.dp ≠ 0
    · rw [if_pos haccess]
      exact ⟨_, rfl, endsBelow_error hw.seen _ _⟩
    rw [if_neg haccess]
    by_cases hdots : name = dot ∨ name = dotdot
    swap
    · rw [if_neg hdots]
      exact walkName_proceeds hW limit nd hw (not_or.1 hdots) hrest hfuel
    rw [if_pos hdots]
    have hgone : ∃ r, (if name = dotdot then W.dotdotOf root fuel w.dp w.seen
        else some (.ok w.dp, w.seen)) = some r ∧ W.Stays root r := by
      split
      · exact dotdotOf_stays hW ((hW.height w.dp).trans_lt hfuel) hdir hw.dp hw.seen
      · refine ⟨_, rfl, hw.seen, ?_⟩
        rintro v ⟨⟩
        exact hw.dp
    obtain ⟨⟨r, seen⟩, hr, hseen, hdp⟩ := hgone
    rw [hr]
    cases r with
    | error e => exact ⟨_, rfl, endsBelow_error hseen _ _⟩
    | ok dp =>
      split_ifs
      · exact ⟨_, rfl, endsBelow_error hseen _ _⟩
      · refine ⟨_, rfl, hseen, ?_, ?_⟩
        · rintro f v ⟨⟩ ⟨⟩
          exact hdp dp rfl
        · rintro f v ⟨⟩ ⟨⟩
      · exact ⟨_, rfl, ⟨hdp dp rfl, hseen, hw.cached⟩, Nat.add_lt_add_left hrest _⟩

/-- The loop of the walk ends, and below `root`. -/
theorem walkLoop_endsBelow (hW : W.IsTree up depth height) (limit : Nat) {inner : Nat}
    (nd : NameiData V) (hinner : height < inner) (hw : W.Confined root w)
    (hfuel : Walk.rounds w < fuel) :
    ∃ r, W.walkLoop root limit nd inner fuel w = some r ∧ W.EndsBelow root r := by
  induction fuel generalizing w with
  | zero => exact absurd hfuel (Nat.not_lt_zero _)
  | succ fuel ih =>
    obtain ⟨o, ho, hproceeds⟩ := walkStep_proceeds hW limit nd hw hinner
    rw [walkLoop, ho]
    cases o with
    | inl r => exact ⟨r, rfl, hproceeds⟩
    | inr w' => exact ih hproceeds.1 (by have := hproceeds.2; omega)

/-- **Lookups stay below the process's root.**  Over every tree of mounts, a lookup that starts at or
below the process's root comes to an end, and every vnode it visits and what it returns are at or
below the process's root: whatever the path, the links, and the cache of the tree's names. -/
theorem namei_confined (hW : W.IsTree up depth height) (limit : Nat) (nd : NameiData V)
    (hstart : Below W.Under root nd.startdir) {c : NameCache V} (hc : W.Cached c) :
    ∃ n, ∀ fuel ≥ n, ∃ r, W.namei root limit nd c fuel = some r ∧ W.EndsBelow root r := by
  refine ⟨max (height + 1) ((maxSymlinks + 1) * (pathMax + 1)), fun fuel hfuel ↦ ?_⟩
  have hnil : ∀ v ∈ ([] : List V), Below W.Under root v := nofun
  rw [namei]
  split_ifs with hempty hlong hroot
  · exact ⟨_, rfl, endsBelow_error hnil _ c⟩
  · exact ⟨_, rfl, endsBelow_error hnil _ c⟩
  · exact ⟨_, rfl, endsBelow_error hnil _ c⟩
  · have hdp : Below W.Under root (nd.start root) := by
      rw [NameiData.start]
      split
      · exact Below.refl root
      · exact hstart
    refine walkLoop_endsBelow hW limit nd (by omega) ⟨hdp, forall_mem_singleton.2 hdp, hc⟩ ?_
    rw [Walk.rounds, Nat.sub_zero]
    rw [Nat.succ_mul] at hfuel
    dsimp only
    omega

end Confined

end Vnodes

end Lookup

/-! ## A jail -/

/-- `/jail`, and on `/jail/mnt` a file system with a link `up` to `../../..`: vnode 0 is `/`, 1 is
`jail`, 2 is `mnt` and 3 the root on it, 4 is the link. -/
def jail : Vnodes (Fin 5) (Fin 2) where
  rootvnode := some 0
  vtype v := if v = 4 then .lnk else .dir
  isRoot v := v = 0 ∨ v = 3
  mount v := if v ≤ 2 then 0 else 1
  mnt_vnodecovered mp := if mp = 1 then some 2 else none
  v_mountedhere v := if v = 2 then some 1 else none
  vfsRoot mp := .ok (if mp = 1 then 3 else 0)
  folding _ := ⟨false, id⟩
  nocache _ := false
  access _ := 0
  vopLookup v name _ _ :=
    if v = 0 ∧ name = "jail".toUTF8.toList then .ok 1
    else if v = 1 ∧ name = "mnt".toUTF8.toList then .ok 2
    else if v = 3 ∧ name = "up".toUTF8.toList then .ok 4
    else .error ENOENT
  vopLookupDotdot v := .ok (if v = 1 ∨ v = 2 then v - 1 else v)
  vopReadlink _ := .ok "../../..".toUTF8.toList

/-- Where each vnode of the jail is. -/
def jailUp (v : Fin 5) : Option (Fin 5) := if v = 0 then none else some (v - 1)

theorem jail_isTree : jail.IsTree jailUp Fin.val 4 where
  under a b h hdir := by
    cases h with
    | entry name op last hname h =>
      simp only [jail] at h
      split_ifs at h with hjail hmnt hup
      · cases h
        rw [hjail.1]
        rfl
      · cases h
        rw [hmnt.1]
        rfl
      · cases h
        cases hdir
    | mounted mp hmp h =>
      revert a b mp
      decide
  covered := by decide
  dotdot v p _ hp := by
    revert v p
    decide
  mounted v mp r hmp hr := by
    revert v mp r
    decide
  dir := by decide
  deeper := by decide
  height v := Nat.le_of_lt_succ v.isLt

/-- A process in the jail follows the link. -/
theorem namei_confined_jail : ∃ n, ∀ fuel ≥ n, ∃ r,
    jail.namei 1 2048 ⟨"mnt/up".toUTF8.toList, .lookup, true, 1⟩ .empty fuel = some r
      ∧ jail.EndsBelow 1 r :=
  Vnodes.namei_confined jail_isTree 2048 _ (Below.refl 1) nofun

end OxideBSD.Vfs
