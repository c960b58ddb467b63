import Mathlib.Data.List.Forall2
import RacOS.Vfs.Tmpfs

/-!
# Search permission is a barrier

A lookup on behalf of a caller succeeds exactly when the kernel's own lookup
does and every directory it enters grants the caller search permission.  What
lies beneath a directory that the caller may not search has therefore no
influence on what the caller's lookups return: two states of the mounted
filesystems that differ only there give the same results.

A state of a filesystem is what its read operations return, so the monad here
is `Except VfsError`.
-/

namespace RacOS.Vfs

open Program Security

/-- A filesystem as it stands. -/
abbrev Snapshot (ι : Type) := Filesystem (Except VfsError) ι

variable {ι : Type}

namespace Snapshot

/-- Directory `dir` grants search permission. -/
def Grants (fs : Snapshot ι) (creds : Credentials) (dir : ι) : Prop :=
  ∃ info, fs.metadata dir = .ok info ∧ canAccess creds info .execute = true

/-- The directories that a walk along `components` enters. -/
def enters (fs : Snapshot ι) : ι → List (List UInt8) → List ι
  | _, [] => []
  | dir, component :: rest =>
    dir ::
      match fs.lookup dir component >>= fs.getInode with
      | .ok next => fs.enters next rest
      | .error _ => []

/-- The inodes that are reached from the root without going through the
directory `top`. -/
inductive Outside (fs : Snapshot ι) (top : ι) : ι → Prop
  | root : Outside fs top fs.rootInode
  | child {dir next : ι} {name : List UInt8} {ino : ℕ}
      (hdir : Outside fs top dir) (hne : dir ≠ top)
      (hlookup : fs.lookup dir name = .ok ino)
      (hnext : fs.getInode ino = .ok next) : Outside fs top next

/-- Two states agree on everything that is not beneath the directory `top`. -/
structure DifferBeneath (top : ι) (fs fs' : Snapshot ι) : Prop where
  rootInode : fs.rootInode = fs'.rootInode
  metadata : ∀ dir, fs.Outside top dir → fs.metadata dir = fs'.metadata dir
  lookup : ∀ dir, fs.Outside top dir → dir ≠ top → ∀ name, fs.lookup dir name = fs'.lookup dir name
  getInode : ∀ dir, fs.Outside top dir → dir ≠ top → ∀ name ino,
    fs.lookup dir name = .ok ino → fs.getInode ino = fs'.getInode ino

end Snapshot

open MountTable

/-! ## One filesystem -/

section Walk

variable {fs fs' : Snapshot ι} {creds : Credentials}

theorem requireSearch_ok_iff {dir : ι} {u : Unit} :
    requireSearch fs creds dir = .ok u ↔ fs.Grants creds dir := by
  rw [requireSearch, Snapshot.Grants]
  cases hinfo : fs.metadata dir with
  | error e => simp [bind, Except.bind]
  | ok info =>
    by_cases haccess : canAccess creds info .execute = true
    · simp [bind, Except.bind, haccess, pure, Except.pure]
    · simp [bind, Except.bind, haccess, throw, throwThe, MonadExceptOf.throw]

theorem walkLoop_cons_ok_iff {checking : Option Credentials} {dir inode : ι}
    {component : List UInt8} {rest : List (List UInt8)} :
    walkLoop fs checking dir (component :: rest) = .ok inode ↔
      (∀ creds ∈ checking, fs.Grants creds dir) ∧
        ∃ next, (fs.lookup dir component >>= fs.getInode) = .ok next ∧
          walkLoop fs checking next rest = .ok inode := by
  have hrest : (do
      let ino ← fs.lookup dir component
      let next ← fs.getInode ino
      walkLoop fs checking next rest) = .ok inode ↔
        ∃ next, (fs.lookup dir component >>= fs.getInode) = .ok next ∧
          walkLoop fs checking next rest = .ok inode := by
    rw [← bind_assoc, except_bind_ok_iff]
  cases checking with
  | none =>
    rw [walkLoop, ← hrest]
    simp
  | some creds =>
    rw [walkLoop, except_bind_ok_iff, ← hrest]
    simp [requireSearch_ok_iff]

theorem walkLoop_as_iff (dir : ι) (comps : List (List UInt8)) (inode : ι) :
    walkLoop fs (some creds) dir comps = .ok inode ↔
      walkLoop fs none dir comps = .ok inode ∧ ∀ d ∈ fs.enters dir comps, fs.Grants creds d := by
  induction comps generalizing dir with
  | nil => simp [walkLoop, Snapshot.enters]
  | cons component rest ih =>
    rw [walkLoop_cons_ok_iff, walkLoop_cons_ok_iff, Snapshot.enters]
    cases hstep : fs.lookup dir component >>= fs.getInode with
    | error e => simp
    | ok next =>
      simp only [Except.ok.injEq, exists_eq_left', ih next,
        List.forall_mem_cons, Option.mem_def, Option.some.injEq,
        forall_eq', reduceCtorEq, false_imp_iff, implies_true, true_and]
      exact and_left_comm

theorem requireSearch_congr {dir : ι} (h : fs.metadata dir = fs'.metadata dir) :
    requireSearch fs creds dir = requireSearch fs' creds dir := by
  rw [requireSearch, requireSearch, h]

/-- What the caller does with the inode that a walk ends in sees no difference
beneath a directory that the caller may not search. -/
theorem walkLoop_differBeneath {top : ι} (h : Snapshot.DifferBeneath top fs fs')
    (htop : ¬fs.Grants creds top) {α : Type} {k k' : ι → Except VfsError α}
    (hk : ∀ inode, fs.Outside top inode → k inode = k' inode) {dir : ι}
    (hdir : fs.Outside top dir) (comps : List (List UInt8)) :
    (walkLoop fs (some creds) dir comps >>= k) = (walkLoop fs' (some creds) dir comps >>= k') := by
  induction comps generalizing dir with
  | nil => exact hk dir hdir
  | cons component rest ih =>
    simp only [walkLoop, bind_assoc]
    rw [← requireSearch_congr (h.metadata dir hdir)]
    apply except_bind_congr
    intro _ hsearch
    -- The walk goes on only in directories that grant search permission.
    have hne : dir ≠ top := by
      rintro rfl
      exact htop (requireSearch_ok_iff.mp hsearch)
    rw [← h.lookup dir hdir hne]
    apply except_bind_congr
    intro ino hlookup
    rw [← h.getInode dir hdir hne component ino hlookup]
    apply except_bind_congr
    intro next hnext
    exact ih (hdir.child hne hlookup hnext)

end Walk

/-! ## The mount table -/

/-- Every directory that looking up `path` enters grants search permission. -/
def MountTable.Searchable (mt : MountTable (Except VfsError) ι)
    (creds : Credentials) (path : List UInt8) : Prop :=
  match mt.resolve path with
  | none => True
  | some (_, mount, remainder) =>
    ∀ dir ∈ Snapshot.enters mount.fs mount.fs.rootInode (components remainder),
      Snapshot.Grants mount.fs creds dir

/-- A mount whose filesystem differs at most beneath a directory that the
caller may not search. -/
def MountEntry.DiffersUnseen (creds : Credentials) (e e' : MountEntry (Except VfsError) ι) : Prop :=
  e.path = e'.path ∧
    (e.fs = e'.fs ∨ ∃ top, ¬Snapshot.Grants e.fs creds top ∧ Snapshot.DifferBeneath top e.fs e'.fs)

/-- Two states of the mounted filesystems that differ only beneath directories
that the caller may not search. -/
def MountTable.DiffersUnseen (creds : Credentials)
    (mt mt' : MountTable (Except VfsError) ι) : Prop :=
  List.Forall₂ (MountEntry.DiffersUnseen creds) mt.mounts mt'.mounts

section Table

variable {mt mt' : MountTable (Except VfsError) ι} {creds : Credentials}

theorem forall₂_getElem? {α β : Type} {R : α → β → Prop} {l : List α}
    {l' : List β} (h : List.Forall₂ R l l') (i : ℕ) :
    (l[i]? = none ∧ l'[i]? = none) ∨ ∃ a b, l[i]? = some a ∧ l'[i]? = some b ∧ R a b := by
  induction h generalizing i with
  | nil => exact .inl ⟨rfl, rfl⟩
  | cons hab _ ih =>
    cases i with
    | zero => exact .inr ⟨_, _, rfl, rfl, hab⟩
    | succ i => simpa using ih i

/-- Which mount a path belongs to depends on the paths of the mounts only. -/
theorem resolve_differsUnseen (h : DiffersUnseen creds mt mt') (path : List UInt8) :
    (mt.resolve path = none ∧ mt'.resolve path = none) ∨
      ∃ idx e e' remainder, mt.resolve path = some (idx, e, remainder) ∧
        mt'.resolve path = some (idx, e', remainder) ∧
        MountEntry.DiffersUnseen creds e e' := by
  have hpaths : mt.mounts.map MountEntry.path = mt'.mounts.map MountEntry.path := by
    rw [← List.forall₂_eq_eq_eq, List.forall₂_map_left_iff, List.forall₂_map_right_iff]
    exact h.imp fun _ _ he => he.1
  rw [resolve, resolve, ← hpaths]
  cases bestMount path (mt.mounts.map MountEntry.path).zipIdx none with
  | none => exact .inl ⟨rfl, rfl⟩
  | some best =>
    rcases forall₂_getElem? h best.2 with ⟨he, he'⟩ | ⟨e, e', he, he', hee⟩
    · left
      simp [he, he']
    · right
      simp only [he, he', bind, Option.bind]
      exact ⟨best.2, e, e', _, rfl, rfl, hee⟩

/-- What the caller does with the inode that a walk in one mount ends in. -/
theorem walkLoop_differsUnseen {e e' : MountEntry (Except VfsError) ι}
    (h : MountEntry.DiffersUnseen creds e e') {α : Type} {k : Snapshot ι → ι → Except VfsError α}
    (hk : ∀ inode, e.fs.metadata inode = e'.fs.metadata inode →
      k e.fs inode = k e'.fs inode) (comps : List (List UInt8)) :
    (walkLoop e.fs (some creds) e.fs.rootInode comps >>= k e.fs) =
      (walkLoop e'.fs (some creds) e'.fs.rootInode comps >>= k e'.fs) := by
  rcases h.2 with heq | ⟨top, htop, hdiff⟩
  · rw [heq]
  · rw [← hdiff.rootInode]
    exact walkLoop_differBeneath hdiff htop
      (fun inode hinode => hk inode (hdiff.metadata inode hinode)) .root comps

theorem filter_hasCap (hcap : hasCap creds capDacOverride = false) :
    (some creds).filter (fun c => !hasCap c capDacOverride) = some creds := by
  simp [hcap]

theorem lookupPathAs_ok_iff (hcap : hasCap creds capDacOverride = false)
    (path : List UInt8) (r : ℕ × ℕ) :
    mt.lookupPathAs path creds = .ok r ↔ mt.lookupPath path = .ok r ∧ mt.Searchable creds path := by
  rw [lookupPathAs, lookupPath, walk, walk, Searchable]
  cases mt.resolve path with
  | none => simp [throw, throwThe, MonadExceptOf.throw]
  | some res =>
    obtain ⟨idx, mount, remainder⟩ := res
    dsimp only
    by_cases hempty : remainder = []
    · subst hempty
      simp [components, Snapshot.enters]
    · rw [if_neg hempty, if_neg hempty, filter_hasCap hcap, except_bind_ok_iff, except_bind_ok_iff]
      simp only [walkLoop_as_iff, Option.filter_none]
      constructor
      · rintro ⟨inode, ⟨hwalk, hgrants⟩, hinfo⟩
        exact ⟨⟨inode, hwalk, hinfo⟩, hgrants⟩
      · rintro ⟨⟨inode, hwalk, hinfo⟩, hgrants⟩
        exact ⟨inode, ⟨hwalk, hgrants⟩, hinfo⟩

theorem lookupPathAs_differsUnseen (hcap : hasCap creds capDacOverride = false)
    (h : DiffersUnseen creds mt mt') (path : List UInt8) :
    mt.lookupPathAs path creds = mt'.lookupPathAs path creds := by
  rw [lookupPathAs, lookupPathAs, walk, walk]
  rcases resolve_differsUnseen h path with
    ⟨hres, hres'⟩ | ⟨idx, e, e', remainder, hres, hres', hee⟩
  · rw [hres, hres']
  · rw [hres, hres']
    -- The last step of a walk reads the metadata of the inode it ends in.
    have hwalk := walkLoop_differsUnseen hee (k := fun fs inode => do
      let info ← fs.metadata inode
      pure (idx, info.ino)) (fun inode hinfo => by rw [hinfo])
    dsimp only
    by_cases hempty : remainder = []
    · rw [if_pos hempty, if_pos hempty]
      exact hwalk []
    · rw [if_neg hempty, if_neg hempty, filter_hasCap hcap]
      exact hwalk (components remainder)

theorem requireSearchToParent_differsUnseen (h : DiffersUnseen creds mt mt') (path : List UInt8) :
    mt.requireSearchToParent path creds = mt'.requireSearchToParent path creds := by
  rw [requireSearchToParent, requireSearchToParent]
  rcases resolve_differsUnseen h path with
    ⟨hres, hres'⟩ | ⟨idx, e, e', remainder, hres, hres', hee⟩
  · rw [hres, hres']
  · rw [hres, hres']
    have hwalk := walkLoop_differsUnseen hee
      (k := fun fs inode => requireSearch fs creds inode)
      (fun inode hinfo => requireSearch_congr hinfo)
    dsimp only
    rw [hwalk]

/-- Without the overriding capability, a lookup on behalf of a caller succeeds
exactly when the kernel's own lookup does and every directory it enters grants
search permission, and no difference beneath directories that do not grant it
shows in what the caller's lookups return. -/
theorem search_permission_barrier (mt : MountTable (Except VfsError) ι)
    (creds : Credentials) (hcap : hasCap creds capDacOverride = false)
    (path : List UInt8) :
    (∀ r, mt.lookupPathAs path creds = .ok r ↔
      mt.lookupPath path = .ok r ∧ mt.Searchable creds path) ∧
    ∀ mt', mt.DiffersUnseen creds mt' → mt.lookupPathAs path creds = mt'.lookupPathAs path creds ∧
      mt.requireSearchToParent path creds = mt'.requireSearchToParent path creds :=
  ⟨lookupPathAs_ok_iff hcap path, fun _ h =>
    ⟨lookupPathAs_differsUnseen hcap h path, requireSearchToParent_differsUnseen h path⟩⟩

end Table

/-! ## A private directory -/

/-- A tmpfs with a directory that only root may search. -/
def privateDir : Tmpfs :=
  final (do
    let _ ← Tmpfs.createDir 0 [100]
    Tmpfs.setMetadata 1
      { ino := 1, fileType := .directory, mode := FileMode.new 0o700
        uid := 0, gid := 0, size := 0, nlink := 2 } : TmpfsM Unit) Tmpfs.new

/-- The same with a file in the directory. -/
def privateFile : Tmpfs := final (Tmpfs.createFile 1 [102]) privateDir

/-- The table that mounts a tmpfs at the root. -/
def rootMount (fs : Tmpfs) : MountTable (Except VfsError) ℕ :=
  ⟨[⟨[slash], fs.filesystem⟩]⟩

/-- An ordinary user. -/
def sampleCreds : Credentials :=
  { uid := 1000, gid := 1000, euid := 1000, egid := 1000
    capPermitted := 0, capEffective := 0, capInheritable := 0 }

theorem privateFile_lookup_root {name : List UInt8} {ino : ℕ}
    (h : privateFile.lookup 0 name = .ok ino) : ino = 1 := by
  have hfind : privateFile.findChild 0 name = .ok (privateFile.findNamed name [1]) := rfl
  rw [Tmpfs.lookup, hfind, Tmpfs.findNamed] at h
  by_cases hnamed : privateFile.isNamed name 1
  · rw [if_pos hnamed] at h
    cases h
    rfl
  · rw [if_neg hnamed] at h
    cases h

theorem privateFile_outside {inode : ℕ} (h : Snapshot.Outside privateFile.filesystem 1 inode) :
    inode = 0 ∨ inode = 1 := by
  induction h with
  | root => exact .inl rfl
  | @child dir next name ino _ hne hlookup hnext ih =>
    obtain rfl : dir = 0 := ih.resolve_right hne
    obtain rfl := privateFile_lookup_root hlookup
    cases hnext
    exact .inr rfl

theorem privateFile_differsUnseen :
    (rootMount privateFile).DiffersUnseen sampleCreds (rootMount privateDir) := by
  have hgrants : ¬Snapshot.Grants privateFile.filesystem sampleCreds 1 := by
    rintro ⟨info, hinfo, haccess⟩
    cases hinfo
    exact absurd haccess (by decide)
  refine .cons ⟨rfl, .inr ⟨1, hgrants, rfl, ?_, ?_, ?_⟩⟩ .nil
  · intro dir hdir
    rcases privateFile_outside hdir with rfl | rfl <;> rfl
  · intro dir hdir hne name
    obtain rfl : dir = 0 := (privateFile_outside hdir).resolve_right hne
    rfl
  · intro dir hdir hne name ino hlookup
    obtain rfl : dir = 0 := (privateFile_outside hdir).resolve_right hne
    obtain rfl := privateFile_lookup_root hlookup
    rfl

/-- The file in the private directory is there, and an ordinary user cannot
tell. -/
theorem search_permission_barrier_privateFile :
    hasCap sampleCreds capDacOverride = false ∧
      (rootMount privateFile).lookupPath [47, 100, 47, 102] = .ok (0, 2) ∧
      (rootMount privateDir).lookupPath [47, 100, 47, 102] = .error .notFound ∧
      (rootMount privateFile).lookupPathAs [47, 100, 47, 102] sampleCreds =
        (rootMount privateDir).lookupPathAs [47, 100, 47, 102] sampleCreds :=
  ⟨by decide, by rfl, by rfl,
    ((search_permission_barrier (rootMount privateFile) sampleCreds (by decide)
      [47, 100, 47, 102]).2 _ privateFile_differsUnseen).1⟩

end RacOS.Vfs
