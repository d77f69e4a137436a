import OxideBSD.Vfs.Namei

/-!
# The name cache and the file system

The system calls that change names (`sys/kern/vfs_syscalls.rs`, `sys/kern/vfs_vnops.rs`) keep the name
cache in step with a file system by purging what they change.  The file system is modelled by what the
kernel sees of it (`Mounted`): the entries of each directory, each with all the names that find it (a
file of a FAT has a long and a short name), and the vnode of each file that has one.  What a file
system does in a call, how far it gets when it fails included, comes with the call.

* `Coherent`: whenever the cache answers, the file system would answer the same.
* `run_coherent`: in every run of calls that meet `Tidy` it stays coherent, with any number of vnodes
  recycled in between.  `Tidy` only excludes things that happen where case is folded, and a creation
  that runs out of memory between making the name and making the vnode.
* `renamedTo_not_coherent`: a rename where case is folded leaves negative entries for the other
  names of the file it moves.

Calls run one at a time, under the giant lock.
-/

set_option autoImplicit false

namespace OxideBSD.Vfs

open Function List Option AList

/-- How the names of a mount compare: in the cache, and in its file system.  A file system that does
not fold case compares exactly. -/
structure Naming where
  folding : Folding
  same : Name → Name → Bool
  exact : folding.casefold = false → ∀ a b, same a b = true → a = b

/-- Names of `N` that the cache folds alike are alike for the file system. -/
def Naming.Plain (nm : Naming) (N : Name → Prop) : Prop :=
  nm.folding.casefold = true → ∀ a b, N a → N b → nm.folding.lower a = nm.folding.lower b →
    nm.same a = nm.same b

/-- A directory entry, with every name that it is stored under. -/
structure Entry (I : Type) where
  names : List Name
  file : I
  deriving DecidableEq

section Coherence

variable {V I : Type}

/-! ## The file system -/

/-- Whether the entry is found under `name`. -/
def Entry.matches (nm : Naming) (e : Entry I) (name : Name) : Bool := e.names.any (nm.same name)

/-- The entry of `name`. -/
def findEntry (nm : Naming) (l : List (Entry I)) (name : Name) : Option (Entry I) :=
  l.find? fun e ↦ e.matches nm name

/-- `l` without the entry of `name`. -/
def removeEntry (nm : Naming) (l : List (Entry I)) (name : Name) : List (Entry I) :=
  l.eraseP fun e ↦ e.matches nm name

/-! ## Finding entries -/

section Find

variable {nm : Naming} {l : List (Entry I)} {name n : Name} {e e' : Entry I}

theorem findEntry_append (h : findEntry nm l n = some e) (l' : List (Entry I)) :
    findEntry nm (l ++ l') n = some e := by
  rw [findEntry] at h
  rw [findEntry, find?_append, h, some_or]

theorem findEntry_append_none (h : findEntry nm l n = none) (he : e.matches nm n = false) :
    findEntry nm (l ++ [e]) n = none := by
  rw [findEntry] at h
  rw [findEntry, find?_append, h, find?_singleton, he]
  rfl

theorem findEntry_removeEntry_none (h : findEntry nm l n = none) :
    findEntry nm (removeEntry nm l name) n = none := by
  rw [findEntry, find?_eq_none] at h ⊢
  exact fun e he ↦ h e (eraseP_subset he)

/-- Removing an entry loses no other. -/
theorem findEntry_removeEntry (h : findEntry nm l n = some e) :
    findEntry nm l name = some e ∨ findEntry nm (removeEntry nm l name) n = some e := by
  induction l with
  | nil => cases h
  | cons x l ih =>
    rw [findEntry, find?_cons] at h
    rw [findEntry, find?_cons, removeEntry, eraseP_cons]
    cases hname : x.matches nm name with
    | true =>
      cases hx : x.matches nm n with
      | true =>
        rw [hx] at h
        exact Or.inl h
      | false =>
        rw [hx] at h
        exact Or.inr h
    | false =>
      cases hx : x.matches nm n with
      | true =>
        rw [hx] at h
        refine Or.inr ?_
        rw [cond_false, findEntry, find?_cons, hx]
        exact h
      | false =>
        rw [hx] at h
        rw [cond_false, findEntry, find?_cons, hx]
        exact ih h

theorem matches_of_findEntry (h : findEntry nm l n = some e) : e ∈ l ∧ e.matches nm n = true := by
  have hmatches := find?_some h
  exact ⟨mem_of_find?_eq_some h, hmatches⟩

end Find

/-! ## A mount -/

variable (V I) in
/-- A mount: the directories, the vnodes of files that have one, and the cache. -/
structure Mounted where
  dirs : I → List (Entry I)
  vnodes : AList fun _ : I ↦ V
  cache : NameCache V

namespace Mounted

variable [DecidableEq V] [DecidableEq I]

def setDir (s : Mounted V I) (d : I) (l : List (Entry I)) : Mounted V I :=
  { s with dirs := update s.dirs d l }

/-- `s` without the entry of `name` in `d`, if the file system gets that far. -/
def takeName (nm : Naming) (s : Mounted V I) (d : I) (name : Name) (removed : Bool) : Mounted V I :=
  if removed then s.setDir d (removeEntry nm (s.dirs d) name) else s

/-- `s` with the entry `e` in `d`, if the file system gets that far. -/
def addEntry (s : Mounted V I) (d : I) (e : Entry I) (added : Bool) : Mounted V I :=
  if added then s.setDir d (s.dirs d ++ [e]) else s

/-- The file system's `lookup`; a file without a vnode gets `fresh`. -/
def vopLookup (nm : Naming) (s : Mounted V I) (d : I) (name : Name) (fresh : V) (fails : Option Int) :
    Except Int V × Mounted V I :=
  match fails with
  | some e => (.error e, s)
  | none =>
    match findEntry nm (s.dirs d) name with
    | none => (.error ENOENT, s)
    | some e =>
      match s.vnodes.lookup e.file with
      | some vp => (.ok vp, s)
      | none => (.ok fresh, { s with vnodes := s.vnodes.insert e.file fresh })

/-- `lookup_component`; the file system is asked when the cache does not know. -/
def lookupIn (nm : Naming) (limit : Nat) (s : Mounted V I) (d : I) (dvp : V) (name : Name)
    (op : NameiOp) (islast : Bool) (fresh : V) (fails : Option Int) :
    Except Int (Option V) × Mounted V I :=
  let a := if (s.cache.lookup nm.folding dvp name).isSome then (.error ENOENT, s)
    else s.vopLookup nm d name fresh fails
  let r := lookupComponent nm.folding limit true a.1 s.cache dvp name op islast
  (r.1, { a.2 with cache := r.2 })

/-- How a creation ends: it fails before the name is made, it fails for want of memory for the vnode
after that, or it succeeds. -/
inductive Creation
  | fails
  | nomem
  | made
  deriving DecidableEq

/-- `mkdir`, `mknod`, `symlink` and `open` of a new file, after the lookup. -/
def make (s : Mounted V I) (d : I) (dvp : V) (e : Entry I) (fresh : V) (how : Creation) :
    Mounted V I :=
  match how with
  | .fails => s
  | .nomem => s.addEntry d e true
  | .made =>
    let s := s.addEntry d e true
    { s with vnodes := s.vnodes.insert e.file fresh, cache := s.cache.purgeNegative dvp }

/-- `link`, after the lookup. -/
def link (s : Mounted V I) (d : I) (dvp : V) (e : Entry I) (added : Bool) : Mounted V I :=
  { s.addEntry d e added with cache := s.cache.purgeNegative dvp }

/-- `unlink` and, with `isDir`, `rmdir` of `vp`, after the lookup. -/
def remove (nm : Naming) (s : Mounted V I) (d : I) (dvp : V) (name : Name) (vp : V) (isDir : Bool)
    (removed : Bool) : Mounted V I :=
  let c := if isDir then s.cache.purge vp else s.cache
  { s.takeName nm d name removed with cache := c.purgeName nm.folding dvp name }

/-- What a rename is asked: `file`, which is `fname` in `fd`, is to be `tname` in `td`, where `tvp` is
if anything is. -/
structure Renaming (V I : Type) where
  file : I
  fvp : V
  isDir : Bool
  fd : I
  fdvp : V
  fname : Name
  td : I
  tdvp : V
  tname : Name
  tvp : Option V

/-- How far the file system gets in a rename: whether the old entries go, and the other names of the
entry it makes. -/
structure Renamed where
  removedTo : Bool
  removedFrom : Bool
  added : Bool
  aliases : List Name

/-- What the file system does in a rename: what is in the way goes, the old name goes, the new one is
made. -/
def vopRename (nm : Naming) (s : Mounted V I) (q : Renaming V I) (r : Renamed) : Mounted V I :=
  ((s.takeName nm q.td q.tname r.removedTo).takeName nm q.fd q.fname r.removedFrom).addEntry q.td
    ⟨q.tname :: r.aliases, q.file⟩ r.added

/-- What a rename forgets. -/
def Renaming.purges (nm : Naming) (q : Renaming V I) (c : NameCache V) : NameCache V :=
  let c := c.purgeName nm.folding q.fdvp q.fname
  let c := c.purgeName nm.folding q.tdvp q.tname
  let c := if q.isDir then c.purge q.fvp else c
  match q.tvp with
  | some tvp => c.purge tvp
  | none => c

/-- `rename`, after the lookups and the checks. -/
def rename (nm : Naming) (s : Mounted V I) (q : Renaming V I) (r : Renamed) : Mounted V I :=
  { s.vopRename nm q r with cache := q.purges nm s.cache }

/-- `vgone` of a vnode: to make room for another, or because its file is gone. -/
def recycle (s : Mounted V I) (vp : V) : Mounted V I :=
  { s with
    vnodes := ⟨s.vnodes.entries.filter fun x ↦ x.2 ≠ vp,
      s.vnodes.nodupKeys.sublist List.filter_sublist⟩
    cache := s.cache.purge vp }

/-! ## The calls -/

variable (V I) in
/-- The calls, with what their file system does in them. -/
inductive Event
  | lookup (d : I) (dvp : V) (name : Name) (op : NameiOp) (islast : Bool) (fresh : V)
      (fails : Option Int)
  | make (d : I) (dvp : V) (name : Name) (aliases : List Name) (file : I) (fresh : V) (how : Creation)
  | link (d : I) (dvp : V) (name : Name) (aliases : List Name) (file : I) (added : Bool)
  | remove (d : I) (dvp : V) (name : Name) (isDir : Bool) (fresh : V) (fails : Option Int)
      (removed : Bool)
  | rename (q : Renaming V I) (r : Renamed)
  | recycle (vp : V)

/-- No file has the vnode `fresh`. -/
def Fresh (s : Mounted V I) (fresh : V) : Prop := fresh ∉ s.vnodes.entries.map Sigma.snd

/-- `name` can be looked up in directory `d`, whose vnode is `dvp`. -/
def Asks (s : Mounted V I) (d : I) (dvp : V) (name : Name) : Prop :=
  s.vnodes.lookup d = some dvp ∧ name ≠ dot ∧ name ≠ dotdot

/-- `name` can be made, with the other names `aliases`: only where case is folded are there any. -/
def Makes (nm : Naming) (s : Mounted V I) (d : I) (name : Name) (aliases : List Name) : Prop :=
  findEntry nm (s.dirs d) name = none ∧ (nm.folding.casefold = true ∨ aliases = [])

/-- What the lookups and checks of a rename have found. -/
def Finds (nm : Naming) (s : Mounted V I) (q : Renaming V I) : Prop :=
  s.Asks q.fd q.fdvp q.fname ∧ s.Asks q.td q.tdvp q.tname
    ∧ (findEntry nm (s.dirs q.fd) q.fname).map Entry.file = some q.file
    ∧ s.vnodes.lookup q.file = some q.fvp
    ∧ (findEntry nm (s.dirs q.td) q.tname).map (fun e ↦ s.vnodes.lookup e.file)
      = q.tvp.map some
    ∧ q.tvp ≠ some q.fvp

instance (s : Mounted V I) (fresh : V) : Decidable (s.Fresh fresh) :=
  inferInstanceAs (Decidable (_ ∉ _))

instance (s : Mounted V I) (d : I) (dvp : V) (name : Name) : Decidable (s.Asks d dvp name) :=
  inferInstanceAs (Decidable (_ ∧ _))

instance (nm : Naming) (s : Mounted V I) (d : I) (name : Name) (aliases : List Name) :
    Decidable (s.Makes nm d name aliases) :=
  inferInstanceAs (Decidable (_ ∧ _))

instance (nm : Naming) (s : Mounted V I) (q : Renaming V I) : Decidable (s.Finds nm q) :=
  inferInstanceAs (Decidable (_ ∧ _))

/-- One call. -/
def step (nm : Naming) (limit : Nat) (s : Mounted V I) : Event V I → Option (Mounted V I)
  | .lookup d dvp name op islast fresh fails =>
    if s.Asks d dvp name ∧ s.Fresh fresh ∧ fails ≠ some ENOENT then
      some (s.lookupIn nm limit d dvp name op islast fresh fails).2
    else none
  | .make d dvp name aliases file fresh how =>
    if s.Asks d dvp name ∧ s.Makes nm d name aliases ∧ s.Fresh fresh
        ∧ s.vnodes.lookup file = none then
      some (s.make d dvp ⟨name :: aliases, file⟩ fresh how)
    else none
  | .link d dvp name aliases file added =>
    if s.Asks d dvp name ∧ s.Makes nm d name aliases then
      some (s.link d dvp ⟨name :: aliases, file⟩ added)
    else none
  | .remove d dvp name isDir fresh fails removed =>
    if s.Asks d dvp name ∧ s.Fresh fresh ∧ fails ≠ some ENOENT then
      match s.lookupIn nm limit d dvp name .delete true fresh fails with
      | (.ok (some vp), s') => some (s'.remove nm d dvp name vp isDir removed)
      | (_, s') => some s'
    else none
  | .rename q r =>
    if s.Finds nm q ∧ (nm.folding.casefold = true ∨ r.aliases = []) then
      some (s.rename nm q r)
    else none
  | .recycle vp => some (s.recycle vp)

/-- The condition on a call.  Names are from `N`.  A creation may run out of memory after it has made
the name only where no name is cached as missing.  Where case is folded, a rename needs that no name is
cached as missing in the directory it moves to but the one it makes, and that the name it takes away is
cached if another name of the file is. -/
def Tidy (nm : Naming) (N : Name → Prop) (s : Mounted V I) : Event V I → Prop
  | .lookup _ _ name _ _ _ _ => N name
  | .make _ dvp _ _ _ _ how => how = .nomem → s.cache.keysIn dvp (fun v ↦ v = none) = []
  | .link .. => True
  | .remove _ _ name _ _ _ _ => N name
  | .rename q _ => nm.folding.casefold = true →
      (∀ k ∈ s.cache.keysIn q.tdvp (fun v ↦ v = none), k = nm.folding.key q.tdvp q.tname)
        ∧ (q.isDir = true ∨ s.cache.get (nm.folding.key q.fdvp q.fname) = some (some q.fvp)
          ∨ s.cache.keysIn q.fdvp (fun v ↦ v = some q.fvp) = [])
  | .recycle _ => True

instance (nm : Naming) (N : Name → Prop) [DecidablePred N] (s : Mounted V I) (e : Event V I) :
    Decidable (s.Tidy nm N e) :=
  match e with
  | .lookup _ _ name _ _ _ _ => inferInstanceAs (Decidable (N name))
  | .make .. => inferInstanceAs (Decidable (_ → _))
  | .link .. => isTrue trivial
  | .remove _ _ name _ _ _ _ => inferInstanceAs (Decidable (N name))
  | .rename .. => inferInstanceAs (Decidable (_ → _))
  | .recycle _ => isTrue trivial

/-! ## Coherence -/

/-- What the file system would say about `name` in `d` is `hit`. -/
def Says (nm : Naming) (s : Mounted V I) (d : I) (name : Name) : Hit V → Prop
  | .found vp => ∃ e, findEntry nm (s.dirs d) name = some e ∧ s.vnodes.lookup e.file = some vp
  | .missing => findEntry nm (s.dirs d) name = none

/-- Whenever the cache answers, the file system would say the same. -/
def Coherent (nm : Naming) (N : Name → Prop) (s : Mounted V I) : Prop :=
  ∀ d dvp name hit, N name → s.vnodes.lookup d = some dvp →
    s.cache.lookup nm.folding dvp name = some hit → s.Says nm d name hit

end Mounted

namespace Mounted

section Inv

variable [DecidableEq I] {nm : Naming} {N : Name → Prop} {s s' : Mounted V I} {d d' : I} {dvp : V}
  {name n : Name} {hit : Hit V} {k : V × Name} {e : Entry I} {fresh vp : V} {v : Option V}
  {c : NameCache V} {q : Renaming V I}

/-! ## Changing directories -/

theorem setDir_dirs_self (s : Mounted V I) (d : I) (l : List (Entry I)) : (s.setDir d l).dirs d = l :=
  update_self ..

theorem setDir_dirs_of_ne (hd : d' ≠ d) (l : List (Entry I)) :
    (s.setDir d l).dirs d' = s.dirs d' :=
  update_of_ne hd ..

theorem addEntry_vnodes (s : Mounted V I) (d : I) (e : Entry I) (added : Bool) :
    (s.addEntry d e added).vnodes = s.vnodes := by
  cases added <;> rfl

theorem takeName_vnodes (nm : Naming) (s : Mounted V I) (d : I) (name : Name) (removed : Bool) :
    (s.takeName nm d name removed).vnodes = s.vnodes := by
  cases removed <;> rfl

/-- A new entry changes what is said about the names that find it and were missing. -/
theorem says_addEntry (h : s.Says nm d' n hit)
    (hnew : d' = d → hit = .missing → e.matches nm n = false) (added : Bool) :
    (s.addEntry d e added).Says nm d' n hit := by
  cases added with
  | false => exact h
  | true =>
    rw [addEntry, if_pos rfl]
    by_cases hd : d' = d
    · subst hd
      cases hit with
      | found vp =>
        obtain ⟨e', he', hvp⟩ := h
        refine ⟨e', ?_, hvp⟩
        rw [setDir_dirs_self]
        exact findEntry_append he' _
      | missing =>
        rw [Says, setDir_dirs_self]
        exact findEntry_append_none h (hnew rfl rfl)
    · cases hit with
      | found vp =>
        obtain ⟨e', he', hvp⟩ := h
        refine ⟨e', ?_, hvp⟩
        rw [setDir_dirs_of_ne hd]
        exact he'
      | missing =>
        rw [Says, setDir_dirs_of_ne hd]
        exact h

/-- An entry that goes changes what is said about the names that find it. -/
theorem says_takeName (h : s.Says nm d' n hit)
    (hother : ∀ e vp, d' = d → hit = .found vp → findEntry nm (s.dirs d) n = some e →
      s.vnodes.lookup e.file = some vp → findEntry nm (s.dirs d) name ≠ some e) (removed : Bool) :
    (s.takeName nm d name removed).Says nm d' n hit := by
  cases removed with
  | false => exact h
  | true =>
    rw [takeName, if_pos rfl]
    by_cases hd : d' = d
    · subst hd
      cases hit with
      | found vp =>
        obtain ⟨e, he, hvp⟩ := h
        refine ⟨e, ?_, hvp⟩
        rw [setDir_dirs_self]
        exact (findEntry_removeEntry he).resolve_left (hother e vp rfl rfl he hvp)
      | missing =>
        rw [Says, setDir_dirs_self]
        exact findEntry_removeEntry_none h
    · cases hit with
      | found vp =>
        obtain ⟨e, he, hvp⟩ := h
        refine ⟨e, ?_, hvp⟩
        rw [setDir_dirs_of_ne hd]
        exact he
      | missing =>
        rw [Says, setDir_dirs_of_ne hd]
        exact h

/-! ## The invariant -/

/-- A file has one vnode, a vnode one file, and where case is not folded an entry one name. -/
structure Fit (nm : Naming) (s : Mounted V I) : Prop where
  inj : ∀ f g v, s.vnodes.lookup f = some v → s.vnodes.lookup g = some v → f = g
  exact : nm.folding.casefold = false → ∀ d, ∀ e ∈ s.dirs d, ∀ a b, e.matches nm a = true →
    e.matches nm b = true → a = b

theorem Fit.addEntry (h : s.Fit nm) (he : nm.folding.casefold = false → ∃ x, e.names = [x]) (d : I)
    (added : Bool) : (s.addEntry d e added).Fit nm := by
  cases added with
  | false => exact h
  | true =>
    refine ⟨h.inj, fun hcase d' e' he' a b ha hb ↦ ?_⟩
    rw [Mounted.addEntry, if_pos rfl] at he'
    by_cases hd : d' = d
    · subst hd
      rw [setDir_dirs_self] at he'
      rcases mem_append.1 he' with he' | he'
      · exact h.exact hcase d' e' he' a b ha hb
      · obtain ⟨x, hx⟩ := he hcase
        rw [mem_singleton.1 he', Entry.matches, hx] at ha hb
        simp only [any_cons, any_nil, Bool.or_false] at ha hb
        rw [nm.exact hcase a x ha, nm.exact hcase b x hb]
    · rw [setDir_dirs_of_ne hd] at he'
      exact h.exact hcase d' e' he' a b ha hb

theorem Fit.takeName (h : s.Fit nm) (d : I) (name : Name) (removed : Bool) :
    (s.takeName nm d name removed).Fit nm := by
  cases removed with
  | false => exact h
  | true =>
    refine ⟨h.inj, fun hcase d' e he ↦ h.exact hcase d' e ?_⟩
    rw [Mounted.takeName, if_pos rfl] at he
    by_cases hd : d' = d
    · subst hd
      rw [setDir_dirs_self] at he
      exact eraseP_subset he
    · rwa [setDir_dirs_of_ne hd] at he

theorem Fresh.lookup_ne (h : s.Fresh fresh) (f : I) : s.vnodes.lookup f ≠ some fresh :=
  fun hf ↦ h (mem_map.2 ⟨⟨f, fresh⟩, mem_lookup_iff.1 hf, rfl⟩)

theorem Fit.insert (h : s.Fit nm) (hfresh : s.Fresh fresh) (file : I) :
    Fit nm { s with vnodes := s.vnodes.insert file fresh } := by
  refine ⟨fun f g v hf hg ↦ ?_, h.exact⟩
  by_cases hf' : f = file <;> by_cases hg' : g = file
  · rw [hf', hg']
  · rw [hf', lookup_insert] at hf
    rw [lookup_insert_ne hg', ← hf] at hg
    exact absurd hg (hfresh.lookup_ne g)
  · rw [hg', lookup_insert] at hg
    rw [lookup_insert_ne hf', ← hg] at hf
    exact absurd hf (hfresh.lookup_ne f)
  · rw [lookup_insert_ne hf'] at hf
    rw [lookup_insert_ne hg'] at hg
    exact h.inj f g v hf hg

/-- A file that had no vnode gets one; the others keep theirs. -/
theorem lookup_insert_of_some {t : AList fun _ : I ↦ V} {file f : I} {v : V}
    (hnone : t.lookup file = none) (hf : t.lookup f = some v) :
    (t.insert file fresh).lookup f = some v := by
  rw [lookup_insert_ne, hf]
  rintro rfl
  cases hnone.symm.trans hf

/-- The same directories, and at least the vnodes. -/
structure Extends (s s' : Mounted V I) : Prop where
  dirs : s'.dirs = s.dirs
  vnodes : ∀ f v, s.vnodes.lookup f = some v → s'.vnodes.lookup f = some v

theorem Extends.says (h : s.Extends s') (hsaid : s.Says nm d n hit) : s'.Says nm d n hit := by
  cases hit with
  | found vp =>
    obtain ⟨e, he, hvp⟩ := hsaid
    exact ⟨e, h.dirs ▸ he, h.vnodes _ _ hvp⟩
  | missing =>
    rw [Says, h.dirs]
    exact hsaid

/-- A key and the name it was made from. -/
theorem Fit.key_eq (h : s.Fit nm) (hcase : nm.folding.casefold = false)
    (hn : findEntry nm (s.dirs d) n = some e) (hname : findEntry nm (s.dirs d) name = some e)
    (hkey : k = nm.folding.key k.1 n) : k = nm.folding.key k.1 name := by
  obtain ⟨hmem, hmatches⟩ := matches_of_findEntry hn
  rw [← h.exact hcase d e hmem n name hmatches (matches_of_findEntry hname).2]
  exact hkey

/-- The cache's answer for a key. -/
def answer (v : Option V) : Hit V := v.elim .missing .found

theorem answer_eq_missing : answer v = .missing ↔ v = none := by
  cases v with
  | none => exact iff_of_true rfl rfl
  | some v => exact iff_of_false nofun nofun

theorem answer_eq_found : answer v = .found vp ↔ v = some vp := by
  cases v with
  | none => exact iff_of_false nofun nofun
  | some v => exact ⟨fun h ↦ by cases h; rfl, fun h ↦ by cases h; rfl⟩

variable [DecidableEq V]

/-- What is cached under `k` is what the file system says about a name of `N`. -/
def Known (nm : Naming) (N : Name → Prop) (s : Mounted V I) (k : V × Name) (v : Option V) : Prop :=
  ∃ d name, N name ∧ s.vnodes.lookup d = some k.1 ∧ k = nm.folding.key k.1 name
    ∧ s.Says nm d name (answer v)

/-- Everything cached is known. -/
structure Inv (nm : Naming) (N : Name → Prop) (s : Mounted V I) : Prop where
  fit : s.Fit nm
  wf : s.cache.WF
  known : ∀ k v, s.cache.get k = some v → s.Known nm N k v

theorem Inv.coherent (h : s.Inv nm N) (hN : nm.Plain N) : s.Coherent nm N := by
  intro d dvp name hit hname hd hlook
  rw [NameCache.lookup_eq] at hlook
  obtain ⟨v, hv, rfl⟩ := map_eq_some_iff.1 hlook
  obtain ⟨d', name', hname', hd', hkey, hsaid⟩ := h.known _ v hv
  obtain rfl := h.fit.inj d' d dvp hd' hd
  have hsame : ∀ l : List (Entry I), findEntry nm l name = findEntry nm l name' := by
    have hfold := congrArg Prod.snd hkey
    simp only [Folding.key] at hfold
    cases hcase : nm.folding.casefold with
    | false =>
      rw [hcase] at hfold
      exact fun l ↦ congrArg _ hfold
    | true =>
      rw [hcase] at hfold
      intro l
      simp only [findEntry, Entry.matches, hN hcase name name' hname hname' hfold]
  cases v with
  | none => exact (hsame _).trans hsaid
  | some vp =>
    obtain ⟨e, he, hvp⟩ := hsaid
    exact ⟨e, (hsame _).trans he, hvp⟩

/-- What is still cached was known, and still is. -/
theorem Inv.survives (h : s.Inv nm N) (hfit : s'.Fit nm) (hwf : s'.cache.WF)
    (hk : ∀ k v, s'.cache.get k = some v → s.cache.get k = some v ∧ ∀ d name, N name →
      s.vnodes.lookup d = some k.1 → k = nm.folding.key k.1 name → s.Says nm d name (answer v) →
      s'.vnodes.lookup d = some k.1 ∧ s'.Says nm d name (answer v)) : s'.Inv nm N := by
  refine ⟨hfit, hwf, fun k v hv ↦ ?_⟩
  obtain ⟨hget, hkeep⟩ := hk k v hv
  obtain ⟨d, name, hname, hd, hkey, hsaid⟩ := h.known k v hget
  obtain ⟨hd', hsaid'⟩ := hkeep d name hname hd hkey hsaid
  exact ⟨d, name, hname, hd', hkey, hsaid'⟩

/-! ## Lookups -/

omit [DecidableEq V] in
/-- What the file system's lookup does: it says what it says, and makes at most a vnode. -/
theorem vopLookup_spec (hfit : s.Fit nm) (hfresh : s.Fresh fresh) {fails : Option Int}
    (hfails : fails ≠ some ENOENT) {r : Except Int V}
    (hr : s.vopLookup nm d name fresh fails = (r, s')) :
    s.Extends s' ∧ s'.Fit nm ∧ s'.cache = s.cache ∧ (∀ v, r = .ok v → s'.Says nm d name (.found v))
      ∧ (r = .error ENOENT → s'.Says nm d name .missing) := by
  have hsame : s.Extends s := ⟨rfl, fun _ _ hf ↦ hf⟩
  unfold vopLookup at hr
  split at hr
  · cases hr
    refine ⟨hsame, hfit, rfl, ?_, ?_⟩
    · rintro v ⟨⟩
    · rintro ⟨⟩
      exact absurd rfl hfails
  · split at hr
    · next hnone =>
      cases hr
      refine ⟨hsame, hfit, rfl, ?_, ?_⟩
      · rintro v ⟨⟩
      · exact fun _ ↦ hnone
    · next e he =>
      split at hr
      · next vp hvp =>
        cases hr
        refine ⟨hsame, hfit, rfl, ?_, ?_⟩
        · rintro v ⟨⟩
          exact ⟨e, he, hvp⟩
        · rintro ⟨⟩
      · next hnone =>
        cases hr
        refine ⟨⟨rfl, fun f v ↦ lookup_insert_of_some hnone⟩, hfit.insert hfresh e.file, rfl, ?_, ?_⟩
        · rintro v ⟨⟩
          exact ⟨e, he, lookup_insert _⟩
        · rintro ⟨⟩

/-- What is entered is known. -/
theorem Inv.enter (h : s.Inv nm N) (hname : N name) (hd : s.vnodes.lookup d = some dvp) (v : Option V)
    (hsaid : s.Says nm d name (answer v)) (limit : Nat) :
    Inv nm N { s with cache := s.cache.enter nm.folding limit dvp name v } := by
  refine ⟨⟨h.fit.inj, h.fit.exact⟩, h.wf.enter limit dvp name v, fun k v' hget ↦ ?_⟩
  rcases NameCache.get_enter hget with ⟨rfl, rfl⟩ | hget
  · exact ⟨d, name, hname, hd, rfl, hsaid⟩
  · exact h.known k v' hget

theorem Inv.extends (h : s.Inv nm N) (hext : s.Extends s') (hfit : s'.Fit nm)
    (hcache : s'.cache = s.cache) : s'.Inv nm N := by
  refine h.survives hfit (hcache ▸ h.wf) fun k v hget ↦ ⟨hcache ▸ hget, fun d name _ hd _ hsaid ↦ ?_⟩
  exact ⟨hext.vnodes d k.1 hd, hext.says hsaid⟩

/-- **A component's lookup** enters only what the file system says, and the vnode it finds is cached
and what the file system says. -/
theorem lookupIn_spec (h : s.Inv nm N) (hN : nm.Plain N) (hname : N name)
    (hasks : s.Asks d dvp name) (hfresh : s.Fresh fresh) {fails : Option Int}
    (hfails : fails ≠ some ENOENT) {limit : Nat} {op : NameiOp} {islast : Bool}
    {r : Except Int (Option V)}
    (hr : s.lookupIn nm limit d dvp name op islast fresh fails = (r, s')) :
    s'.Inv nm N ∧ s.Extends s' ∧ ∀ vp, r = .ok (some vp) →
      s'.cache.get (nm.folding.key dvp name) = some (some vp) ∧ s'.Says nm d name (.found vp) := by
  obtain ⟨hd, hdots⟩ := hasks
  rw [lookupIn] at hr
  match hhit : s.cache.lookup nm.folding dvp name with
  | some hit =>
    rw [hhit] at hr
    rw [lookupComponent_of_hit hhit] at hr
    cases hr
    refine ⟨h, ⟨rfl, fun _ _ hf ↦ hf⟩, fun vp hvp ↦ ?_⟩
    cases hit with
    | missing =>
      rw [Hit.result] at hvp
      split at hvp
      · cases hvp
      · cases hvp
    | found vp' =>
      cases hvp
      refine ⟨?_, h.coherent hN d dvp name _ hname hd hhit⟩
      rw [NameCache.lookup_eq] at hhit
      obtain ⟨v, hv, heq⟩ := map_eq_some_iff.1 hhit
      cases v with
      | none => cases heq
      | some v =>
        cases heq
        exact hv
  | none =>
    rw [hhit, isSome_none, if_neg Bool.false_ne_true] at hr
    generalize hvop : s.vopLookup nm d name fresh fails = a at hr
    obtain ⟨a, s₁⟩ := a
    obtain ⟨hext, hfit, hcache, hok, hmissing⟩ := vopLookup_spec h.fit hfresh hfails hvop
    have h₁ := h.extends hext hfit hcache
    have hd₁ := hext.vnodes d dvp hd
    rw [← hcache] at hr hhit
    cases hr
    refine ⟨?_, ⟨hext.dirs, hext.vnodes⟩, fun vp hvp ↦ ?_⟩
    · rcases lookupComponent_cache nm.folding limit true a s₁.cache dvp name op islast with
        heq | ⟨v, hv, heq⟩ | ⟨hv, heq⟩
      · rw [heq]
        exact h₁
      · rw [heq]
        exact h₁.enter hname hd₁ (some v) (hok v hv) limit
      · rw [heq]
        exact h₁.enter hname hd₁ none (hmissing hv) limit
    · have hans : a = .ok vp := by
        rcases lookupComponent_found hvp with hfound | hans
        · rw [hhit] at hfound
          cases hfound
        · exact hans
      refine ⟨?_, hok vp hans⟩
      subst hans
      have hmiss : (lookupComponent nm.folding limit true (.ok vp) s₁.cache dvp name op islast).2 =
          s₁.cache.enter nm.folding limit dvp name (some vp) := by
        unfold lookupComponent
        rw [hhit]
        rfl
      rw [hmiss]
      exact NameCache.get_enter_self hdots (some vp)

/-! ## The other calls -/

/-- A new entry in `d` and a cache that keeps nothing as missing there. -/
theorem Inv.addEntry (h : s.Inv nm N) (hd : s.vnodes.lookup d = some dvp)
    (he : nm.folding.casefold = false → ∃ x, e.names = [x]) (added : Bool) (hwf : c.WF)
    (hc : ∀ k v, c.get k = some v → s.cache.get k = some v ∧ (k.1 = dvp → v ≠ none)) :
    Inv nm N { s.addEntry d e added with cache := c } := by
  have hfit := h.fit.addEntry he d added
  refine h.survives ⟨hfit.inj, hfit.exact⟩ hwf fun k v hget ↦ ?_
  obtain ⟨hget, hneg⟩ := hc k v hget
  refine ⟨hget, fun d' n _ hd' _ hsaid ↦ ⟨?_, ?_⟩⟩
  · exact (congrArg (AList.lookup d') (addEntry_vnodes s d e added)).trans hd'
  · show (s.addEntry d e added).Says nm d' n (answer v)
    refine says_addEntry hsaid (fun heq hmissing ↦ ?_) added
    subst heq
    exact absurd (answer_eq_missing.1 hmissing) (hneg (some.inj (hd'.symm.trans hd)))

theorem link_inv (h : s.Inv nm N) (hd : s.vnodes.lookup d = some dvp)
    (he : nm.folding.casefold = false → ∃ x, e.names = [x]) (added : Bool) :
    (s.link d dvp e added).Inv nm N :=
  h.addEntry hd he added (h.wf.purgeNegative dvp) fun _ _ hget ↦ NameCache.get_purgeNegative hget

theorem make_inv (h : s.Inv nm N) (hd : s.vnodes.lookup d = some dvp)
    (he : nm.folding.casefold = false → ∃ x, e.names = [x]) (hfresh : s.Fresh fresh)
    (hfile : s.vnodes.lookup e.file = none) {how : Creation}
    (htidy : how = .nomem → s.cache.keysIn dvp (fun v ↦ v = none) = []) :
    (s.make d dvp e fresh how).Inv nm N := by
  cases how with
  | fails => exact h
  | nomem =>
    refine h.addEntry hd he true h.wf fun k v hget ↦ ⟨hget, fun hdvp hv ↦ ?_⟩
    have hmem : k ∈ s.cache.keysIn dvp fun v ↦ v = none :=
      NameCache.mem_keysIn.2 ⟨hdvp, v, hget, decide_eq_true hv⟩
    rw [htidy rfl] at hmem
    cases hmem
  | made =>
    have h₁ := h.addEntry hd he true (h.wf.purgeNegative dvp) fun _ _ hget ↦
      NameCache.get_purgeNegative hget
    have hfit := (h.fit.addEntry he d true).insert hfresh e.file
    exact h₁.extends ⟨rfl, fun f v ↦ lookup_insert_of_some hfile⟩ ⟨hfit.inj, hfit.exact⟩ rfl

theorem recycle_lookup (s : Mounted V I) (vp : V) (f : I) (v : V) :
    (s.recycle vp).vnodes.lookup f = some v ↔ s.vnodes.lookup f = some v ∧ v ≠ vp := by
  rw [← mem_def, mem_lookup_iff, ← mem_def, mem_lookup_iff]
  exact mem_filter.trans (and_congr_right fun _ ↦ decide_eq_true_iff)

theorem recycle_inv (h : s.Inv nm N) (vp : V) : (s.recycle vp).Inv nm N := by
  refine h.survives ⟨fun f g v hf hg ↦ ?_, h.fit.exact⟩ (h.wf.purge vp) fun k v hget ↦ ?_
  · exact h.fit.inj f g v ((recycle_lookup s vp f v).1 hf).1 ((recycle_lookup s vp g v).1 hg).1
  · obtain ⟨hget, hv, hdir⟩ := NameCache.get_purge h.wf hget
    refine ⟨hget, fun d n _ hd _ hsaid ↦ ⟨(recycle_lookup ..).2 ⟨hd, hdir⟩, ?_⟩⟩
    cases v with
    | none => exact hsaid
    | some v =>
      obtain ⟨e, he, hvp⟩ := hsaid
      refine ⟨e, he, (recycle_lookup ..).2 ⟨hvp, ?_⟩⟩
      rintro rfl
      exact hv rfl

theorem wf_purgeIf (hwf : c.WF) (b : Bool) (vp : V) : (if b then c.purge vp else c).WF := by
  split
  · exact hwf.purge vp
  · exact hwf

theorem get_purgeIf (hwf : c.WF) {b : Bool} (hget : (if b then c.purge vp else c).get k = some v) :
    c.get k = some v ∧ (b = true → v ≠ some vp) := by
  cases b with
  | true =>
    obtain ⟨hget, hv, -⟩ := NameCache.get_purge hwf hget
    exact ⟨hget, fun _ ↦ hv⟩
  | false => exact ⟨hget, Bool.noConfusion⟩

theorem remove_inv (h : s.Inv nm N) (hd : s.vnodes.lookup d = some dvp)
    (hcached : s.cache.get (nm.folding.key dvp name) = some (some vp))
    (hsaid : s.Says nm d name (.found vp)) (isDir removed : Bool) :
    (s.remove nm d dvp name vp isDir removed).Inv nm N := by
  -- the other names of `vp` in the directory go from the cache where case is folded
  have hgone : ∀ k v, ((if isDir then s.cache.purge vp else s.cache).purgeName nm.folding dvp
      name).get k = some v → s.cache.get k = some v ∧ k ≠ nm.folding.key dvp name ∧
        (nm.folding.casefold = true → k.1 = dvp → v ≠ some vp) := by
    intro k v hget
    obtain ⟨hget, hkey, hsame⟩ := NameCache.get_purgeName hget
    obtain ⟨hget, hdir⟩ := get_purgeIf h.wf hget
    refine ⟨hget, hkey, fun hcase hdvp ↦ ?_⟩
    cases isDir with
    | true => exact hdir rfl
    | false => exact hsame hcase vp hcached hdvp
  have hwf := (wf_purgeIf h.wf isDir vp).purgeName (F := nm.folding) dvp name
  have hfit := h.fit.takeName d name removed
  refine h.survives ⟨hfit.inj, hfit.exact⟩ hwf fun k v hget ↦ ?_
  obtain ⟨hget, hkey, hsame⟩ := hgone k v hget
  refine ⟨hget, fun d' n _ hd' hkey' hsaid' ↦ ⟨?_, ?_⟩⟩
  · exact (congrArg (AList.lookup d') (takeName_vnodes nm s d name removed)).trans hd'
  · show (s.takeName nm d name removed).Says nm d' n (answer v)
    refine says_takeName hsaid' (fun e vp' heq hv he hvp' hname ↦ ?_) removed
    subst heq
    obtain rfl : k.1 = dvp := some.inj (hd'.symm.trans hd)
    obtain ⟨e', he', hvp⟩ := hsaid
    cases he'.symm.trans hname
    cases hvp.symm.trans hvp'
    cases hcase : nm.folding.casefold with
    | true => exact hsame hcase rfl (answer_eq_found.1 hv)
    | false => exact hkey (h.fit.key_eq hcase he hname hkey')

omit [DecidableEq I] in
/-- What is left in the cache after a rename. -/
theorem get_purges (hwf : s.cache.WF) (hget : (q.purges nm s.cache).get k = some v) :
    s.cache.get k = some v ∧ k ≠ nm.folding.key q.fdvp q.fname ∧ k ≠ nm.folding.key q.tdvp q.tname
      ∧ (nm.folding.casefold = true → s.cache.get (nm.folding.key q.fdvp q.fname) = some (some q.fvp) →
        k.1 = q.fdvp → v ≠ some q.fvp)
      ∧ (q.isDir = true → v ≠ some q.fvp) ∧ ∀ tvp, q.tvp = some tvp → v ≠ some tvp := by
  have hwf₂ := (hwf.purgeName (F := nm.folding) q.fdvp q.fname).purgeName (F := nm.folding) q.tdvp q.tname
  have hwf₃ := wf_purgeIf hwf₂ q.isDir q.fvp
  rw [Renaming.purges] at hget
  obtain ⟨hget, htvp⟩ : (if q.isDir then ((s.cache.purgeName nm.folding q.fdvp q.fname).purgeName
      nm.folding q.tdvp q.tname).purge q.fvp else (s.cache.purgeName nm.folding q.fdvp q.fname).purgeName
      nm.folding q.tdvp q.tname).get k = some v ∧ ∀ tvp, q.tvp = some tvp → v ≠ some tvp := by
    cases htvp : q.tvp with
    | none =>
      rw [htvp] at hget
      exact ⟨hget, nofun⟩
    | some tvp =>
      rw [htvp] at hget
      obtain ⟨hget, hv, -⟩ := NameCache.get_purge hwf₃ hget
      refine ⟨hget, ?_⟩
      rintro _ ⟨⟩
      exact hv
  obtain ⟨hget, hdir⟩ := get_purgeIf hwf₂ hget
  obtain ⟨hget, hto, -⟩ := NameCache.get_purgeName hget
  obtain ⟨hget, hfrom, hsame⟩ := NameCache.get_purgeName hget
  exact ⟨hget, hfrom, hto, fun hcase ↦ hsame hcase q.fvp, hdir, htvp⟩

omit [DecidableEq I] in
theorem wf_purges (hwf : s.cache.WF) (q : Renaming V I) : (q.purges nm s.cache).WF := by
  have hwf₃ := wf_purgeIf ((hwf.purgeName (F := nm.folding) q.fdvp q.fname).purgeName (F := nm.folding)
    q.tdvp q.tname) q.isDir q.fvp
  rw [Renaming.purges]
  cases q.tvp with
  | none => exact hwf₃
  | some tvp => exact hwf₃.purge tvp

omit [DecidableEq V] in
/-- What a rename finds in the way is what goes. -/
theorem Finds.says_takeTo (hfinds : s.Finds nm q) (htvp : ∀ tvp, q.tvp = some tvp → v ≠ some tvp)
    (hsaid : s.Says nm d n (answer v)) (removed : Bool) :
    (s.takeName nm q.td q.tname removed).Says nm d n (answer v) := by
  obtain ⟨-, -, -, -, hto, -⟩ := hfinds
  refine says_takeName hsaid (fun e vp _ hv _ hvp hname ↦ ?_) removed
  rw [hname, map_some, hvp] at hto
  obtain ⟨tvp, htvp', heq⟩ := map_eq_some_iff.1 hto.symm
  cases heq
  exact htvp vp htvp' (answer_eq_found.1 hv)

omit [DecidableEq V] in
/-- What a rename moves is still there once what was in the way has gone. -/
theorem Finds.says_from (hfinds : s.Finds nm q) (removed : Bool) :
    (s.takeName nm q.td q.tname removed).Says nm q.fd q.fname (.found q.fvp) := by
  obtain ⟨-, -, hfrom, hfvp, -, hne⟩ := id hfinds
  obtain ⟨e, he, hfile⟩ := map_eq_some_iff.1 hfrom
  refine hfinds.says_takeTo (v := some q.fvp) (fun tvp htvp heq ↦ hne ?_) ⟨e, he, hfile ▸ hfvp⟩ removed
  rw [htvp, heq]

theorem rename_inv (h : s.Inv nm N) (hfinds : s.Finds nm q) {r : Renamed}
    (haliases : nm.folding.casefold = true ∨ r.aliases = []) (htidy : s.Tidy nm N (.rename q r)) :
    (s.rename nm q r).Inv nm N := by
  have hfit₁ := h.fit.takeName q.td q.tname r.removedTo
  have hfit := (hfit₁.takeName q.fd q.fname r.removedFrom).addEntry
    (e := ⟨q.tname :: r.aliases, q.file⟩) (fun hcase ↦ ⟨q.tname, by simp_all⟩) q.td r.added
  refine h.survives ⟨hfit.inj, hfit.exact⟩ (wf_purges h.wf q) fun k v hget ↦ ?_
  obtain ⟨hget, hfrom, hto, hsame, hdir, htvp⟩ := get_purges h.wf hget
  have hvnodes : (s.vopRename nm q r).vnodes = s.vnodes := by
    rw [vopRename, addEntry_vnodes, takeName_vnodes, takeName_vnodes]
  refine ⟨hget, fun d n _ hd hkey hsaid ↦ ⟨(congrArg (AList.lookup d) hvnodes).trans hd, ?_⟩⟩
  have hsaid₁ := hfinds.says_takeTo htvp hsaid r.removedTo
  have hfvp₁ := hfinds.says_from r.removedTo
  obtain ⟨⟨hfd, -⟩, ⟨htd, -⟩, -⟩ := hfinds
  have hsaid₂ : ((s.takeName nm q.td q.tname r.removedTo).takeName nm q.fd q.fname r.removedFrom).Says
      nm d n (answer v) := by
    refine says_takeName hsaid₁ (fun e vp heq hv he hvp hname ↦ ?_) r.removedFrom
    subst heq
    have hdvp : k.1 = q.fdvp := some.inj (hd.symm.trans hfd)
    obtain ⟨e', he', hvp'⟩ := hfvp₁
    cases he'.symm.trans hname
    cases hvp'.symm.trans hvp
    have hv := answer_eq_found.1 hv
    cases hcase : nm.folding.casefold with
    | true =>
      rcases (htidy hcase).2 with hisDir | hcached | hnone
      · exact hdir hisDir hv
      · exact hsame hcase hcached hdvp hv
      · have hmem : k ∈ s.cache.keysIn q.fdvp fun v ↦ v = some q.fvp :=
          NameCache.mem_keysIn.2 ⟨hdvp, v, hget, decide_eq_true hv⟩
        rw [hnone] at hmem
        cases hmem
    | false => exact hfrom (hdvp ▸ hfit₁.key_eq hcase he hname hkey)
  refine says_addEntry hsaid₂ (fun heq hmissing ↦ Bool.eq_false_iff.2 fun hmatches ↦ ?_) r.added
  subst heq
  have hdvp : k.1 = q.tdvp := some.inj (hd.symm.trans htd)
  cases hcase : nm.folding.casefold with
  | true =>
    have hmem : k ∈ s.cache.keysIn q.tdvp fun v ↦ v = none :=
      NameCache.mem_keysIn.2 ⟨hdvp, v, hget, decide_eq_true (answer_eq_missing.1 hmissing)⟩
    exact hto ((htidy hcase).1 k hmem)
  | false =>
    rw [haliases.resolve_left (hcase ▸ Bool.false_ne_true), Entry.matches, any_cons, any_nil,
      Bool.or_false] at hmatches
    rw [nm.exact hcase n q.tname hmatches, hdvp] at hkey
    exact hto hkey

/-! ## Runs -/

omit [DecidableEq I] in
theorem single_names {aliases : List Name} {file : I}
    (h : nm.folding.casefold = true ∨ aliases = []) (hcase : nm.folding.casefold = false) :
    ∃ x, (Entry.mk (name :: aliases) file).names = [x] := by
  rcases h with h | rfl
  · rw [hcase] at h
    cases h
  · exact ⟨name, rfl⟩

/-- One tidy call. -/
theorem step_inv (hN : nm.Plain N) (limit : Nat) (s : Mounted V I) (e : Event V I) (s' : Mounted V I)
    (htidy : s.Tidy nm N e) (h : s.Inv nm N) (hstep : s.step nm limit e = some s') : s'.Inv nm N := by
  cases e with
  | lookup d dvp name op islast fresh fails =>
    obtain ⟨hok, ⟨⟩⟩ := of_ite_right hstep nofun
    exact (lookupIn_spec h hN htidy hok.1 hok.2.1 hok.2.2 rfl).1
  | make d dvp name aliases file fresh how =>
    obtain ⟨hok, hstep⟩ := of_ite_right hstep nofun
    obtain ⟨hasks, hmakes, hfresh, hfile⟩ := hok
    cases hstep
    exact make_inv h hasks.1 (single_names hmakes.2) hfresh hfile htidy
  | link d dvp name aliases file added =>
    obtain ⟨hok, ⟨⟩⟩ := of_ite_right hstep nofun
    exact link_inv h hok.1.1 (single_names hok.2.2) added
  | remove d dvp name isDir fresh fails removed =>
    obtain ⟨hok, hstep⟩ := of_ite_right hstep nofun
    generalize hr : s.lookupIn nm limit d dvp name .delete true fresh fails = r at hstep
    obtain ⟨r, s₁⟩ := r
    obtain ⟨h₁, hext, hfound⟩ := lookupIn_spec h hN htidy hok.1 hok.2.1 hok.2.2 hr
    split at hstep
    · next vp s₂ heq =>
      cases heq
      cases hstep
      obtain ⟨hcached, hsaid⟩ := hfound vp rfl
      exact remove_inv h₁ (hext.vnodes d dvp hok.1.1) hcached hsaid isDir removed
    · next s₂ _ heq =>
      cases heq
      cases hstep
      exact h₁
  | rename q r =>
    obtain ⟨hok, ⟨⟩⟩ := of_ite_right hstep nofun
    exact rename_inv h hok.1 hok.2 htidy
  | recycle vp =>
    cases hstep
    exact recycle_inv h vp

/-- **The name cache is coherent** in every run of tidy calls, from any mount with nothing cached:
whenever it answers for a name of `N`, the file system would say the same. -/
theorem run_coherent (hN : nm.Plain N) {limit : Nat} {s s' : Mounted V I} (hfit : s.Fit nm)
    (hempty : s.cache = .empty) {es : List (Event V I)}
    (htidy : Machine.Meets (step nm limit) (Tidy nm N) s es)
    (hrun : Machine.run (step nm limit) s es = some s') : s'.Coherent nm N := by
  have hinit : s.Inv nm N := by
    refine ⟨hfit, hempty ▸ NameCache.empty_wf, fun k v hget ↦ ?_⟩
    rw [hempty] at hget
    cases hget
  exact (Machine.run_inv (step_inv hN limit) hinit htidy hrun).coherent hN

end Inv

/-- A root directory, file 0 with vnode 10, with the entry `a` for file 1. -/
def oneFile : Mounted Nat Nat where
  dirs d := if d = 0 then [⟨[[97]], 1⟩] else []
  vnodes := AList.singleton 0 10
  cache := .empty

theorem oneFile_fit {nm : Naming} : oneFile.Fit nm := by
  refine ⟨fun f g v hf hg ↦ ?_, fun hcase d e he a b ha hb ↦ ?_⟩
  · cases mem_singleton.1 (mem_lookup_iff.1 hf)
    cases mem_singleton.1 (mem_lookup_iff.1 hg)
    rfl
  · rw [oneFile] at he
    dsimp only at he
    split at he
    · rw [mem_singleton.1 he, Entry.matches, any_cons, any_nil, Bool.or_false] at ha hb
      rw [nm.exact hcase a _ ha, nm.exact hcase b _ hb]
    · cases he

/-- Names that compare exactly. -/
def exactNaming : Naming := ⟨⟨false, id⟩, fun a b ↦ a = b, fun _ _ _ h ↦ of_decide_eq_true h⟩

/-- ASCII names that compare without case. -/
def asciiNaming : Naming where
  folding := ⟨true, List.map fun c ↦ if 65 ≤ c ∧ c ≤ 90 then c + 32 else c⟩
  same a b := a.map (fun c ↦ if 65 ≤ c ∧ c ≤ 90 then c + 32 else c)
    = b.map fun c ↦ if 65 ≤ c ∧ c ≤ 90 then c + 32 else c
  exact h := by cases h

/-- `b+b` is looked up, and so is its short name `b_b~1`; then `a` is renamed to `b+b`. -/
def renamedTo (aliases : List Name) : List (Event Nat Nat) :=
  [.lookup 0 10 [98, 43, 98] .lookup true 11 none, .lookup 0 10 [98, 95, 98, 126, 49] .lookup true 11 none,
    .lookup 0 10 [97] .delete true 11 none,
    .rename ⟨1, 11, false, 0, 10, [97], 0, 10, [98, 43, 98], none⟩ ⟨false, true, true, aliases⟩]

theorem run_coherent_renamedTo : ∃ s, Machine.run (step exactNaming 8) oneFile (renamedTo []) = some s
    ∧ s.vnodes.lookup 1 = some 11 ∧ s.Coherent exactNaming fun _ ↦ True :=
  Machine.exists_run_and (by decide +kernel) fun _ hrun ↦ run_coherent nofun oneFile_fit rfl (by decide +kernel) hrun

/-- Where case is folded, `b_b~1` stays cached as missing. -/
theorem renamedTo_not_coherent : ∃ s,
    Machine.run (step asciiNaming 8) oneFile (renamedTo [[66, 95, 66, 126, 49]]) = some s
      ∧ ¬ s.Coherent asciiNaming fun _ ↦ True := by
  refine Machine.exists_run_of (fun s ↦ s.vnodes.lookup 0 = some 10
    ∧ s.cache.lookup asciiNaming.folding 10 [98, 95, 98, 126, 49] = some .missing
    ∧ findEntry asciiNaming (s.dirs 0) [98, 95, 98, 126, 49] ≠ none) (by decide +kernel) ?_
  intro s _ ⟨hd, hcached, hfound⟩ h
  exact hfound (h 0 10 _ _ trivial hd hcached)

end Mounted

end Coherence

end OxideBSD.Vfs
