import RacOS.Syscall.Error
import RacOS.Vfs.MountChoice
import RacOS.Vfs.Search

/-!
# The working directory

The model of `sys_chdir` and of the system calls that take a path.  Except for
`sys_chdir`, which keeps the path as it is written, such a call learns about its path
only what the mount table says: what a lookup on behalf of the caller finds, whether
the caller may search the way to the parent, and the mount the path belongs to.
`sys_mount` and `sys_umount` are left out: they refuse a path that is not absolute.

No call asks for the working directory.  All mounts have absolute paths, so nothing
is found at a relative path, while the directory itself is there at the path made of
the working directory, a slash and a dot.
-/

namespace RacOS.Syscall

open Program Security Vfs
open Vfs.MountTable (isMatch MountPath Chosen remainder)

/-- A process as the calls on paths see it.  The root of every mounted filesystem is
there. -/
structure Process (ι : Type) where
  mountTable : MountTable (Except VfsError) ι
  creds : Credentials
  cwd : List UInt8
  proper : mountTable.Proper
  hasRoot : ∀ e ∈ mountTable.mounts, e.fs.metadata e.fs.rootInode ≠ .error .notFound

variable {ι σ : Type}

namespace Process

/-- What the mount table says of a path. -/
structure View (ι : Type) where
  found : Except SyscallError (ℕ × ℕ)
  parent : Except SyscallError Unit
  mount : Option (ℕ × MountEntry (Except VfsError) ι × List UInt8)

/-- Resolve a path the way the calling process sees it. -/
def userLookup (p : Process ι) (path : List UInt8) : Except SyscallError (ℕ × ℕ) :=
  (p.mountTable.lookupPathAs path p.creds).mapError mapVfsError

/-- Search permission for the directories leading to the parent of a path. -/
def requireSearchToParent (p : Process ι) (path : List UInt8) : Except SyscallError Unit :=
  (p.mountTable.requireSearchToParent path p.creds).mapError mapVfsError

def view (p : Process ι) (path : List UInt8) : View ι where
  found := p.userLookup path
  parent := p.requireSearchToParent path
  mount := p.mountTable.resolve path

/-- The path without a slash at its end, the root excepted. -/
def stored (path : List UInt8) : List UInt8 :=
  if 1 < path.length ∧ path.getLast? = some slash then path.dropLast else path

/-- Change the working directory. -/
def sysChdir (path : List UInt8) (p : Process ι) : Except SyscallError (Process ι) := do
  let _ ← p.userLookup path
  if 255 < (stored path).length then
    throw .ENAMETOOLONG
  pure { p with cwd := stored path }

def requireDacAccess (p : Process ι) (info : InodeMetadata) (access : Security.Access) :
    Except SyscallError Unit :=
  if canAccess p.creds info access then .ok () else .error .EACCES

/-- May the caller access the inode that was found in the ways that the bits of `mode`
name? -/
def mayAccess (p : Process ι) (mode : UInt32) (at' : ℕ × ℕ) : Except SyscallError Unit := do
  if mode = 0 then
    return ()
  match p.mountTable.mounts[at'.1]? with
  | none => throw .ENOENT
  | some mount =>
    let inode ← (mount.fs.getInode at'.2).mapError mapVfsError
    let info ← (mount.fs.metadata inode).mapError mapVfsError
    if mode &&& 0b100 ≠ 0 then
      p.requireDacAccess info .read
    if mode &&& 0b010 ≠ 0 then
      p.requireDacAccess info .write
    if mode &&& 0b001 ≠ 0 then
      p.requireDacAccess info .execute

end Process

open RacOS.Syscall.Process

/-- A system call on a path.  `σ` is what else of the system it may read and change. -/
inductive PathCall (ι σ : Type)
  | chdir
  | through (body : View ι → Process ι × σ → Except SyscallError ℕ × (Process ι × σ))

namespace PathCall

def run (path : List UInt8) (s : Process ι × σ) :
    PathCall ι σ → Except SyscallError ℕ × (Process ι × σ)
  | chdir =>
    match s.1.sysChdir path with
    | .ok p => (.ok 0, (p, s.2))
    | .error e => (.error e, s)
  | through body => body (s.1.view path) s

def sysAccess (mode : UInt32) : PathCall ι σ :=
  through fun v s => (v.found >>= fun at' => (s.1.mayAccess mode at').map fun _ => 0, s)

end PathCall

namespace Process

/-- The path names a directory that the caller may search. -/
def NamesSearchable (p : Process ι) (path : List UInt8) : Prop :=
  ∃ idx ino mount inode info, p.userLookup path = .ok (idx, ino) ∧
    p.mountTable.mounts[idx]? = some mount ∧ mount.fs.getInode ino = .ok inode ∧
    mount.fs.metadata inode = .ok info ∧ info.fileType = .directory ∧
    canAccess p.creds info .execute = true

/-- Every call does the same on a relative path as on the absolute one made of the
working directory, a slash and the relative path, if that can be passed to a call. -/
def FollowsCwd (p : Process ι) : Prop :=
  ∀ r : List UInt8, r ≠ [] → r.head? ≠ some slash → (p.cwd ++ slash :: r).length < 4096 →
    ∀ (σ : Type) (call : PathCall ι σ) (other : σ),
      call.run r (p, other) = call.run (p.cwd ++ slash :: r) (p, other)

/-- What a change of the working directory is to bring about. -/
def ChdirContract (p : Process ι) (path : List UInt8) : Prop :=
  ∀ p', p.sysChdir path = .ok p' → p.NamesSearchable path ∧ p'.FollowsCwd

/-! ## Mounts of a path and of a name beneath it -/

/-- The path is `cwd`, perhaps with a slash after it. -/
def SpelledAs (cwd path : List UInt8) : Prop :=
  path = cwd ∨ path = cwd ++ [slash] ∧ cwd ≠ []

theorem spelledAs_stored (path : List UInt8) : SpelledAs (stored path) path := by
  rw [stored]
  split_ifs with h
  · obtain ⟨hlen, hlast⟩ := h
    refine Or.inr ⟨(List.dropLast_append_getLast? slash hlast).symm, fun hnil => ?_⟩
    have hlength := congrArg List.length hnil
    rw [List.length_dropLast, List.length_nil] at hlength
    omega
  · exact Or.inl rfl

section Paths

variable {cwd path mpath : List UInt8}

theorem SpelledAs.components_eq (h : SpelledAs cwd path) : components path = components cwd := by
  rcases h with rfl | ⟨rfl, -⟩
  · rfl
  · rw [components_append_slash]
    exact List.append_nil _

theorem SpelledAs.head?_eq (h : SpelledAs cwd path) : path.head? = cwd.head? := by
  rcases h with rfl | ⟨rfl, hne⟩
  · rfl
  · exact List.head?_append_of_ne_nil _ hne

/-- A mount that covers a path covers every name beneath it. -/
theorem SpelledAs.isMatch_beneath (hcwd : SpelledAs cwd path) (hmount : MountPath mpath)
    (h : isMatch mpath path = true) (r : List UInt8) :
    isMatch mpath (cwd ++ slash :: r) = true := by
  refine MountTable.isMatch_iff.mpr ?_
  rcases MountTable.isMatch_iff.mp h with ⟨rfl, rest, hpath⟩ | rfl | ⟨rest, hpath⟩
  · have hhead := hcwd.head?_eq
    rw [hpath, List.head?_cons] at hhead
    obtain ⟨more, rfl⟩ := List.head?_eq_some_iff.mp hhead.symm
    exact Or.inl ⟨rfl, more ++ slash :: r, rfl⟩
  · rcases hcwd with rfl | ⟨rfl, hne⟩
    · exact Or.inr (Or.inr ⟨r, rfl⟩)
    · -- only the path of the root ends in a slash
      rcases hmount.2 with hroot | hlast
      · exact absurd (List.append_inj_left' (hroot.trans (List.nil_append _).symm) rfl) hne
      · exact absurd List.getLast?_concat hlast
  · refine Or.inr (Or.inr ?_)
    rcases hcwd with rfl | ⟨rfl, -⟩
    · exact ⟨rest ++ slash :: r, by rw [hpath, List.append_assoc, List.cons_append]⟩
    · rcases List.eq_nil_or_concat rest with rfl | ⟨front, c, rfl⟩
      · obtain rfl : cwd = mpath := List.append_inj_left' hpath rfl
        exact ⟨r, rfl⟩
      · rw [List.concat_eq_append, ← List.cons_append, ← List.append_assoc] at hpath
        obtain rfl : cwd = mpath ++ slash :: front := List.append_inj_left' hpath rfl
        exact ⟨front ++ slash :: r, by rw [List.append_assoc, List.cons_append]⟩

/-- A mount that covers a name beneath a path is at that name or covers the path. -/
theorem SpelledAs.isMatch_of_beneath (hcwd : SpelledAs cwd path) {name : List UInt8}
    (hname : slash ∉ name) (habs : path.head? = some slash)
    (h : isMatch mpath (cwd ++ slash :: name) = true) :
    mpath = cwd ++ slash :: name ∨ isMatch mpath path = true := by
  rcases MountTable.isMatch_iff.mp h with ⟨rfl, -⟩ | heq | ⟨rest, heq⟩
  · obtain ⟨more, rfl⟩ := List.head?_eq_some_iff.mp habs
    exact Or.inr (MountTable.isMatch_iff.mpr (Or.inl ⟨rfl, more, rfl⟩))
  · exact Or.inl heq.symm
  · refine Or.inr (MountTable.isMatch_iff.mpr (Or.inr ?_))
    -- the slash after the mount path is the one before the name or stands in `cwd`
    have hsplit : mpath = cwd ∨ ∃ more, cwd = mpath ++ slash :: more := by
      rcases List.append_eq_append_iff.mp heq with ⟨more, rfl, hmore⟩ | ⟨more, rfl, hmore⟩
      · cases more with
        | nil => exact Or.inl (List.append_nil _)
        | cons c more =>
          have hmem : slash ∈ name := by
            rw [(List.cons.inj hmore).2]
            exact List.mem_append_right _ List.mem_cons_self
          exact absurd hmem hname
      · cases more with
        | nil => exact Or.inl (List.append_nil _).symm
        | cons c more =>
          obtain ⟨rfl, -⟩ := List.cons.inj hmore
          exact Or.inr ⟨more, rfl⟩
    rcases hsplit with rfl | ⟨more, rfl⟩
    · rcases hcwd with rfl | ⟨rfl, -⟩
      · exact Or.inl rfl
      · exact Or.inr ⟨[], rfl⟩
    · rcases hcwd with rfl | ⟨rfl, -⟩
      · exact Or.inr ⟨more, rfl⟩
      · exact Or.inr ⟨more ++ [slash], by rw [List.append_assoc, List.cons_append]⟩

end Paths

/-! ## Lookups -/

variable {at' : ℕ × ℕ}

section Lookups

variable {mt : MountTable (Except VfsError) ι} {path : List UInt8} (creds : Credentials)

/-- A lookup walks from the root of the mount that was chosen. -/
theorem lookupPathAs_of_answer {e : MountEntry (Except VfsError) ι} {rest : List UInt8}
    (h : mt.answer path = some (e, rest)) :
    ∃ idx, mt.lookupPathAs path creds = (do
      let inode ← MountTable.walkLoop e.fs ((some creds).filter fun c => !hasCap c capDacOverride)
        e.fs.rootInode (components rest)
      let info ← e.fs.metadata inode
      pure (idx, info.ino)) := by
  obtain ⟨idx, hresolve, -⟩ := MountTable.resolve_of_answer h
  refine ⟨idx, ?_⟩
  rw [MountTable.lookupPathAs, MountTable.walk, hresolve]
  by_cases hrest : rest = []
  · subst hrest
    rfl
  · exact if_neg hrest

/-- At a path that is not absolute nothing is found. -/
theorem lookupPathAs_relative (hproper : mt.Proper) (hrel : path.head? ≠ some slash) :
    mt.lookupPathAs path creds = .error .notFound := by
  rcases mt.answer_cases path with ⟨e, hchosen, -⟩ | ⟨-, hanswer⟩
  · exact absurd (MountTable.prefixes_of_isMatch (hproper.paths e hchosen.mem) hchosen.isMatch).1
      hrel
  · rw [MountTable.lookupPathAs, MountTable.walk, MountTable.resolve_eq_none_of_answer hanswer]
    rfl

/-- What is found at a path is there at the path followed by a slash and a dot, unless
a filesystem is mounted at just that place. -/
theorem lookupPathAs_dot (hproper : mt.Proper)
    (hroot : ∀ e ∈ mt.mounts, e.fs.metadata e.fs.rootInode ≠ .error .notFound) {cwd : List UInt8}
    (hcwd : SpelledAs cwd path) (h : mt.lookupPathAs path creds = .ok at') :
    mt.lookupPathAs (cwd ++ slash :: dot) creds ≠ .error .notFound := by
  have habs : path.head? = some slash := by
    by_contra hrel
    rw [lookupPathAs_relative creds hproper hrel] at h
    cases h
  rcases mt.answer_cases path with ⟨e, hchosen, hanswer⟩ | ⟨-, hanswer⟩
  · have hbeneath := hcwd.isMatch_beneath (hproper.paths e hchosen.mem) hchosen.isMatch dot
    rcases mt.answer_cases (cwd ++ slash :: dot) with ⟨e', hchosen', hanswer'⟩ | ⟨hnone, -⟩
    · obtain ⟨idx, hlookup⟩ := lookupPathAs_of_answer creds hanswer'
      rw [hlookup]
      rcases hcwd.isMatch_of_beneath (by decide) habs hchosen'.isMatch with hat | hmatch
      · have hcomponents : components (remainder e'.path (cwd ++ slash :: dot)) = [] := by
          rw [hat, remainder, List.drop_length]
          rfl
        rw [hcomponents]
        intro herror
        cases hinfo : e'.fs.metadata e'.fs.rootInode with
        | error err =>
          simp only [MountTable.walkLoop, pure_bind, hinfo] at herror
          cases herror
          exact hroot e' hchosen'.mem hinfo
        | ok info =>
          simp only [MountTable.walkLoop, pure_bind, hinfo] at herror
          cases herror
      · -- the same mount is chosen for both, and the dot is no component
        have hsame : e' = e := by
          refine Chosen.unique hproper.distinct ⟨hchosen'.mem, hmatch, fun e₁ hmem hmatch₁ => ?_⟩
            hchosen
          exact (hchosen.longest e₁ hmem hmatch₁).trans
            (hchosen'.longest e hchosen.mem hbeneath)
        subst hsame
        have hcomponents : components (remainder e'.path (cwd ++ slash :: dot)) =
            components (remainder e'.path path) := by
          have hbeneath' := MountTable.components_remainder hbeneath
          have hpath := MountTable.components_remainder hchosen.isMatch
          rw [components_append_slash, ← hcwd.components_eq, hpath] at hbeneath'
          exact (List.append_cancel_left (hbeneath'.symm.trans (List.append_nil _)))
        obtain ⟨idx', hfound⟩ := lookupPathAs_of_answer creds hanswer
        rw [hfound] at h
        obtain ⟨inode, hwalk, h⟩ := except_bind_ok_iff.mp h
        obtain ⟨info, hinfo, -⟩ := except_bind_ok_iff.mp h
        rw [hcomponents, hwalk]
        simp [bind, Except.bind, hinfo, pure, Except.pure]
    · rw [hnone e hchosen.mem] at hbeneath
      cases hbeneath
  · rw [MountTable.lookupPathAs, MountTable.walk, MountTable.resolve_eq_none_of_answer hanswer] at h
    cases h

end Lookups

variable {p p' : Process ι} {path : List UInt8}

theorem userLookup_ok_iff :
    p.userLookup path = .ok at' ↔ p.mountTable.lookupPathAs path p.creds = .ok at' := by
  rw [userLookup]
  cases p.mountTable.lookupPathAs path p.creds with
  | ok x => simp [Except.mapError]
  | error e => simp [Except.mapError]

theorem userLookup_ENOENT_iff :
    p.userLookup path = .error .ENOENT ↔
      p.mountTable.lookupPathAs path p.creds = .error .notFound := by
  rw [userLookup]
  cases p.mountTable.lookupPathAs path p.creds with
  | ok x => simp [Except.mapError]
  | error e => cases e <;> simp [Except.mapError, mapVfsError]

/-! ## The contract -/

theorem sysChdir_ok_iff :
    p.sysChdir path = .ok p' ↔
      (∃ at', p.userLookup path = .ok at') ∧ (stored path).length ≤ 255 ∧
        p' = { p with cwd := stored path } := by
  rw [sysChdir, except_bind_ok_iff]
  refine ⟨?_, ?_⟩
  · rintro ⟨at', hfound, h⟩
    by_cases hlong : 255 < (stored path).length
    · rw [if_pos hlong] at h
      cases h
    · rw [if_neg hlong] at h
      cases h
      exact ⟨⟨at', hfound⟩, Nat.le_of_not_lt hlong, rfl⟩
  · rintro ⟨⟨at', hfound⟩, hle, rfl⟩
    exact ⟨at', hfound, if_neg (Nat.not_lt.mpr hle)⟩

/-- A process whose working directory is there finds the directory itself at an
absolute path but not at a relative one. -/
theorem not_followsCwd (hcwd : SpelledAs p.cwd path)
    (hlen : p.cwd.length ≤ 255) (h : p.userLookup path = .ok at') : ¬p.FollowsCwd := by
  intro hfollows
  have hsame := hfollows dot (by decide) (by decide)
    (by rw [List.length_append, List.length_cons, List.length_singleton]; omega)
    Unit (PathCall.sysAccess 0) ()
  have hrelative : p.userLookup dot = .error .ENOENT :=
    userLookup_ENOENT_iff.mpr (lookupPathAs_relative p.creds p.proper (by decide))
  have habsolute : p.userLookup (p.cwd ++ slash :: dot) ≠ .error .ENOENT := fun hnot =>
    lookupPathAs_dot p.creds p.proper p.hasRoot hcwd (userLookup_ok_iff.mp h)
      (userLookup_ENOENT_iff.mp hnot)
  have hresult := congrArg Prod.fst hsame
  simp only [PathCall.run, PathCall.sysAccess, view, hrelative] at hresult
  cases hfound : p.userLookup (p.cwd ++ slash :: dot) with
  | error e =>
    rw [hfound] at hresult habsolute
    cases hresult
    exact habsolute rfl
  | ok x =>
    rw [hfound] at hresult
    cases hresult

/-- The working directory is what it should be exactly if it cannot be changed: if
nothing is found at the path or the path is too long. -/
theorem chdirContract_iff (p : Process ι) (path : List UInt8) :
    p.ChdirContract path ↔ (∀ at', p.userLookup path ≠ .ok at') ∨ 255 < (stored path).length := by
  refine ⟨fun hcontract => ?_, fun hrefused p' hok => ?_⟩
  · by_contra hcan
    obtain ⟨hfound, hlong⟩ := not_or.mp hcan
    obtain ⟨at', hfound⟩ := not_forall_not.mp hfound
    have hlen := Nat.le_of_not_lt hlong
    have hok := sysChdir_ok_iff.mpr ⟨⟨at', hfound⟩, hlen, rfl⟩
    have hnot : ¬FollowsCwd { p with cwd := stored path } :=
      not_followsCwd (spelledAs_stored path) hlen hfound
    exact hnot (hcontract _ hok).2
  · obtain ⟨⟨at', hfound⟩, hlen, -⟩ := sysChdir_ok_iff.mp hok
    rcases hrefused with hnone | hlong
    · exact absurd hfound (hnone at')
    · exact absurd hlen (Nat.not_le.mpr hlong)

theorem proper_rootMount (fs : Tmpfs) : (rootMount fs).Proper where
  distinct := List.nodup_singleton _
  paths := List.forall_mem_singleton.mpr ⟨rfl, Or.inl rfl⟩

theorem hasRoot_oneFile : ∀ e ∈ (rootMount Tmpfs.oneFile).mounts,
    e.fs.metadata e.fs.rootInode ≠ .error .notFound :=
  List.forall_mem_singleton.mpr (by decide)

/-- A process of an ordinary user, with the working directory `/`. -/
def userProcess : Process ℕ where
  mountTable := rootMount Tmpfs.oneFile
  creds := sampleCreds
  cwd := [slash]
  proper := proper_rootMount Tmpfs.oneFile
  hasRoot := hasRoot_oneFile

/-- The same process after `/f` has become its working directory. -/
def userProcessInFile : Process ℕ := { userProcess with cwd := [slash, 102] }

/-- The working directory is changed to the regular file `/f`.  Then `/f/.` is there
and `.` is not. -/
theorem chdir_to_file :
    userProcess.sysChdir [slash, 102] = .ok userProcessInFile ∧
      ¬userProcess.NamesSearchable [slash, 102] ∧
      userProcessInFile.userLookup dot = .error .ENOENT ∧
      userProcessInFile.userLookup [slash, 102, slash, 46] = .ok (0, 1) ∧
      ¬userProcess.ChdirContract [slash, 102] := by
  have hok : userProcess.sysChdir [slash, 102] = .ok userProcessInFile := rfl
  have hfile : ¬userProcess.NamesSearchable [slash, 102] := by
    rintro ⟨idx, ino, mount, inode, info, hfound, hmount, hinode, hinfo, hdir, -⟩
    cases hfound
    cases hmount
    cases hinode
    cases hinfo
    cases hdir
  exact ⟨hok, hfile, rfl, rfl, fun hcontract => hfile (hcontract _ hok).1⟩

end Process

end RacOS.Syscall
