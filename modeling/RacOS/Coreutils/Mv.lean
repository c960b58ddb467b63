import RacOS.Lib.Triples

/-!
# mv

The model of `userland/coreutils/mv/src/main.rs` with `write_all` of `libs/libc-lite/src/lib.rs`:
a move to another filesystem copies the file and then unlinks the source.

The system calls are given by a list of outcomes, one for each call, in the order of the calls.  A
run that uses them up has not ended yet, so that a property of every list of outcomes is one of
every moment of every run.  A failing call changes nothing.

The source is given up only for a copy of it, if what the destination names before the move is
nothing or a regular file.  A device takes every byte and keeps none, and it has no size to compare;
a directory takes no byte, but a file without bytes needs none.
-/

namespace RacOS.Coreutils.Mv

open Program

/-! ## The files and the system calls -/

/-- What a path can name. -/
inductive Node
  | regular (contents : List UInt8)
  | device
  | directory
  deriving DecidableEq

namespace Node

def contents : Node → List UInt8
  | regular contents => contents
  | device | directory => []

def isRegular : Node → Bool
  | regular _ => true
  | device | directory => false

/-- The effect of `O_TRUNC`: it is ignored for what is not a regular file. -/
def truncate : Node → Node
  | regular _ => regular []
  | device => device
  | directory => directory

end Node

/-- How a system call ends: with an error, or with success.  A call that moves bytes moves at most
`count` of them. -/
inductive Outcome
  | fail (errno : ℤ)
  | take (count : ℕ)

/-- A file, by its device and its inode number. -/
abbrev FileId := ℕ × ℕ

structure World where
  files : FileId → Option Node
  /-- What the source path names. -/
  source : Option FileId
  /-- What the destination path names. -/
  dest : Option FileId
  /-- The file that is made if the destination is created. -/
  fresh : FileId
  /-- Whether the paths are on one mount. -/
  sameMount : Bool
  /-- How much of the source has been read. -/
  offset : ℕ := 0
  outcomes : List Outcome := []
  stderr : String := ""

/-- A program that makes system calls; it fails when it is still running at the end of the list. -/
abbrev Command := EStateM Unit World

def next : Command Outcome := do
  match (← get).outcomes with
  | [] => throw ()
  | outcome :: rest =>
    modify fun s => { s with outcomes := rest }
    return outcome

def World.put (s : World) (f : FileId) (n : Option Node) : World :=
  { s with files := fun g => if g = f then n else s.files g }

theorem World.put_self (s : World) {f : FileId} {n : Option Node} : (s.put f n).files f = n :=
  if_pos rfl

theorem World.put_ne (s : World) {f g : FileId} {n : Option Node} (h : g ≠ f) :
    (s.put f n).files g = s.files g :=
  if_neg h

abbrev EIO : ℤ := -5

abbrev EAGAIN : ℤ := -11

abbrev EXDEV : ℤ := -18

abbrev EISDIR : ℤ := -21

def warn (text : String) : Command Unit := modify fun s => { s with stderr := s.stderr ++ text }

structure Ident where
  id : FileId
  size : ℕ
  isRegular : Bool

def statOf (path : World → Option FileId) : Command (Option Ident) := do
  let s ← get
  return do
    let id ← path s
    let node ← s.files id
    return { id, size := node.contents.length, isRegular := node.isRegular }

/-- Only within one mount can a file be renamed. -/
def rename : Command (Except ℤ Unit) := do
  match ← next with
  | .fail e => return .error e
  | .take _ =>
    if (← get).sameMount then
      modify fun s => { s with source := none, dest := s.source }
      return .ok ()
    else return .error EXDEV

def openSource : Command (Except ℤ Unit) := do
  match ← next with
  | .fail e => return .error e
  | .take _ =>
    modify fun s => { s with offset := 0 }
    return .ok ()

/-- Open with `O_WRONLY`, `O_CREAT` and `O_TRUNC`. -/
def openDest : Command (Except ℤ FileId) := do
  match ← next with
  | .fail e => return .error e
  | .take _ =>
    let s ← get
    match s.dest with
    | none =>
      set { s.put s.fresh (some (.regular [])) with dest := some s.fresh }
      return .ok s.fresh
    | some d =>
      set (s.put d ((s.files d).map Node.truncate))
      return .ok d

def read (src : FileId) : Command (Except ℤ (List UInt8)) := do
  match ← next with
  | .fail e => return .error e
  | .take count =>
    let s ← get
    let contents := ((s.files src).map Node.contents).getD []
    let chunk := (contents.drop s.offset).take (min count 4096)
    set { s with offset := s.offset + chunk.length }
    return .ok chunk

/-- The destination is written from its beginning and in order: every write is at its end. -/
def write (dst : FileId) (buf : List UInt8) : Command (Except ℤ ℕ) := do
  match ← next with
  | .fail e => return .error e
  | .take count =>
    let s ← get
    match s.files dst with
    | some (.regular contents) =>
      set (s.put dst (some (.regular (contents ++ buf.take count))))
      return .ok (min count buf.length)
    | some .device => return .ok (min count buf.length)
    | _ => return .error EISDIR

def fstatSize (dst : FileId) : Command (Option ℕ) := do
  match ← next with
  | .fail _ => return none
  | .take _ =>
    match (← get).files dst with
    | some (.regular contents) => return some contents.length
    | _ => return none

def unlinkSource : Command (Except ℤ Unit) := do
  match ← next with
  | .fail e => return .error e
  | .take _ =>
    modify fun s => { s with source := none }
    return .ok ()

def unlinkDest : Command (Except ℤ Unit) := do
  match ← next with
  | .fail e => return .error e
  | .take _ =>
    modify fun s => { s with dest := none }
    return .ok ()

/-! ## The program -/

/-- Every round uses up an outcome, so that the length of the list bounds the number of rounds. -/
def writeAll : (rounds : ℕ) → (dst : FileId) → (buf : List UInt8) → Command (Except ℤ Unit)
  | _, _, [] => return .ok ()
  | 0, _, _ :: _ => throw ()
  | rounds + 1, dst, b :: buf => do
    match ← write dst (b :: buf) with
    | .ok 0 => return .error EIO
    | .ok n => writeAll rounds dst ((b :: buf).drop n)
    | .error e => if e = EAGAIN then writeAll rounds dst (b :: buf) else return .error e

/-- The number of bytes copied, and the message of what went wrong. -/
def copyLoop : (rounds : ℕ) → (src dst : FileId) → (copied : ℕ) → Command (ℕ × Option String)
  | 0, _, _, _ => throw ()
  | rounds + 1, src, dst, copied => do
    match ← read src with
    | .ok [] => return (copied, none)
    | .ok chunk =>
      match ← writeAll (← get).outcomes.length dst chunk with
      | .ok _ => copyLoop rounds src dst (copied + chunk.length)
      | .error _ => return (copied, some "mv: write error\n")
    | .error _ => return (copied, some "mv: read error\n")

/-- The sizes are compared if nothing went wrong before. -/
def failure (src : Ident) (copied : ℕ) (dstSize : Option ℕ) : (failed : Option String) →
    Option String
  | some text => some text
  | none =>
    if copied ≠ src.size then some "mv: destination is short of the source\n"
    else if src.isRegular ∧ dstSize.any (· != src.size) then
      some "mv: destination size does not match the source\n"
    else none

/-- After the copy: give up the source, or else the partial destination. -/
def finish (srcPath : String) (dstExisted : Bool) : (failed : Option String) → Command ℕ
  | some text => do
    warn (text ++ "mv: " ++ srcPath ++ " left in place\n")
    if !dstExisted then
      let _ ← unlinkDest
    return 1
  | none => do
    match ← unlinkSource with
    | .ok _ => return 0
    | .error _ =>
      warn "mv: cannot unlink source\n"
      return 1

/-- The move to another filesystem. -/
def copyAndUnlink (srcPath dstPath : String) (src : Ident) (dstExisted : Bool) : Command ℕ := do
  match ← openSource with
  | .error _ =>
    warn ("mv: " ++ srcPath ++ ": cannot open\n")
    return 1
  | .ok _ =>
    match ← openDest with
    | .error _ =>
      warn ("mv: " ++ dstPath ++ ": cannot create file\n")
      return 1
    | .ok dst =>
      let (copied, failed) ← copyLoop (← get).outcomes.length src.id dst 0
      let dstSize ← fstatSize dst
      finish srcPath dstExisted (failure src copied dstSize failed)

def renameError (e : ℤ) : String :=
  if e = -2 then ": No such file or directory\n"
  else if e = -13 then ": Permission denied\n"
  else if e = -20 then ": Not a directory\n"
  else if e = -21 then ": Is a directory\n"
  else if e = -22 then ": Invalid argument\n"
  else if e = -39 then ": Directory not empty\n"
  else "\n"

/-- A rename if it can be done, and a copy if it cannot because of the mounts. -/
def relocate (srcPath dstPath : String) (src : Ident) (dstExisted : Bool) : Command ℕ := do
  match ← rename with
  | .ok _ => return 0
  | .error e =>
    if e = EXDEV then copyAndUnlink srcPath dstPath src dstExisted
    else
      warn ("mv: cannot rename " ++ srcPath ++ " to " ++ dstPath ++ renameError e)
      return 1

def main : (args : List String) → Command ℕ
  | srcPath :: dstPath :: _ => do
    match ← statOf World.source with
    | none =>
      warn ("mv: " ++ srcPath ++ ": No such file or directory\n")
      return 1
    | some src =>
      match ← statOf World.dest with
      | none => relocate srcPath dstPath src false
      | some dst =>
        if dst.id = src.id then return 0
        else relocate srcPath dstPath src true
  | _ => do
    warn "mv: missing operand\n"
    return 1

/-! ## What a move must keep -/

/-- A regular file with the given contents is to be moved to another mount. -/
structure Crossing (s₀ : World) (src : FileId) (c : List UInt8) : Prop where
  source : s₀.source = some src
  contents : s₀.files src = some (.regular c)
  dest_exists : ∀ d, s₀.dest = some d → (s₀.files d).isSome
  fresh : s₀.files s₀.fresh = none
  mounts : s₀.sameMount = false

/-- The source is there with its contents, and the destination if there was one. -/
structure Intact (s₀ : World) (src : FileId) (c : List UInt8) (s : World) : Prop where
  source : s.source = some src
  contents : s.files src = some (.regular c)
  dest : ∀ d, s₀.dest = some d → s.dest = some d

/-- The source is gone, and the destination is a regular file with its contents. -/
structure Moved (s₀ : World) (c : List UInt8) (s : World) : Prop where
  source : s.source = none
  contents : ∃ d, s.dest = some d ∧ s.files d = some (.regular c)
  dest : ∀ d, s₀.dest = some d → s.dest = some d

/-- Nothing is lost at the end of the list of outcomes: neither if the program has ended, nor if it
is still running. -/
def Safe (s₀ : World) (src : FileId) (c : List UInt8) : EStateM.Result Unit World ℕ → Prop
  | .ok code s => Intact s₀ src c s ∨ code = 0 ∧ Moved s₀ c s
  | .error _ s => Intact s₀ src c s ∨ Moved s₀ c s

/-- A node that keeps what is written to it, or refuses something. -/
def Node.Receives (c : List UInt8) : Node → Prop
  | regular _ => True
  | device => False
  | directory => c ≠ []

/-- What the destination has taken so far. -/
def Node.Holds (c done : List UInt8) : Node → Prop
  | regular contents => contents = done
  | device => False
  | directory => c ≠ [] ∧ done = []

variable {s₀ s : World} {src d : FileId} {c done buf : List UInt8} {k : ℕ}

theorem Node.Receives.truncate {n : Node} (h : n.Receives c) : n.truncate.Holds c [] := by
  cases n with
  | regular contents => rfl
  | device => exact h.elim
  | directory => exact ⟨h, rfl⟩

theorem contents_eq (h : s.files src = some (.regular c)) :
    ((s.files src).map Node.contents).getD [] = c := by
  rw [h]
  rfl

/-- The files and the paths are as they were at the beginning. -/
structure Untouched (s₀ s : World) : Prop where
  files : s.files = s₀.files
  source : s.source = s₀.source
  dest : s.dest = s₀.dest
  fresh : s.fresh = s₀.fresh
  mounts : s.sameMount = s₀.sameMount

theorem Untouched.intact (h : Untouched s₀ s) (hcross : Crossing s₀ src c) : Intact s₀ src c s where
  source := h.source.trans hcross.source
  contents := (congrFun h.files src).trans hcross.contents
  dest _ hd := h.dest.trans hd

/-- The copy under way: `k` bytes are read, and the destination has taken `done`. -/
structure Copying (s₀ : World) (src : FileId) (c : List UInt8) (d : FileId) (k : ℕ)
    (done : List UInt8) (s : World) : Prop extends Intact s₀ src c s where
  dest_eq : s.dest = some d
  ne : d ≠ src
  holds : ∃ n, s.files d = some n ∧ n.Holds c done
  offset : s.offset = k

/-! ## One system call -/

section Calls

variable {I : World → Prop}

/-- A property of the files and the paths outlives a call. -/
def Steady (I : World → Prop) : Prop := ∀ s outcomes, I s → I { s with outcomes := outcomes }

theorem Intact.steady : Steady (Intact s₀ src c) :=
  fun _ _ h => ⟨h.source, h.contents, h.dest⟩

theorem Copying.steady : Steady (Copying s₀ src c d k done) :=
  fun _ _ h => { toIntact := Intact.steady _ _ h.toIntact, dest_eq := h.dest_eq, ne := h.ne
                 holds := h.holds, offset := h.offset }

theorem Steady.next (hI : Steady I) : Maintains I next := by
  intro s hs
  unfold Mv.next
  rw [get_bind_run]
  cases s.outcomes with
  | nil => exact hs
  | cons outcome rest => exact hI s rest hs

/-- A system call: what it does when it fails, and when it goes through. -/
theorem Steady.call {α : Type} {f : Outcome → Command α} {Q : α → World → Prop} {E : World → Prop}
    (hI : Steady I) (hE : ∀ s, I s → E s) (hfail : ∀ e, Triple I (f (.fail e)) Q E)
    (htake : ∀ count, Triple I (f (.take count)) Q E) : Triple I (Mv.next >>= f) Q E := by
  apply Triple.bind (hI.next.mono_error hE)
  intro outcome
  cases outcome with
  | fail e => exact hfail e
  | take count => exact htake count

theorem Untouched.steady : Steady (Untouched s₀) :=
  fun _ _ h => ⟨h.files, h.source, h.dest, h.fresh, h.mounts⟩

theorem Intact.warn (text : String) : Maintains (Intact s₀ src c) (warn text) :=
  Triple.modify fun _ h => ⟨h.source, h.contents, h.dest⟩

/-- What holds after a call that may fail. -/
def Upon {α : Type} (ok : α → World → Prop) (error : World → Prop) : Except ℤ α → World → Prop
  | .ok a, s => ok a s
  | .error _, s => error s

theorem Untouched.openSource (hcross : Crossing s₀ src c) : Triple (Untouched s₀) openSource
    (Upon (fun _ s => Untouched s₀ s ∧ s.offset = 0) (Intact s₀ src c)) (Intact s₀ src c) := by
  apply Untouched.steady.call fun _ h => h.intact hcross
  · exact fun e => Triple.pure fun _ h => h.intact hcross
  · exact fun count _ h => ⟨⟨h.files, h.source, h.dest, h.fresh, h.mounts⟩, rfl⟩

theorem Untouched.openDest (hcross : Crossing s₀ src c) (hne : ∀ d, s₀.dest = some d → d ≠ src)
    (hreceives : ∀ d n, s₀.dest = some d → s₀.files d = some n → n.Receives c) :
    Triple (fun s => Untouched s₀ s ∧ s.offset = 0) Mv.openDest
      (Upon (fun d s => Copying s₀ src c d 0 [] s) (Intact s₀ src c)) (Intact s₀ src c) := by
  have hsteady : Steady fun s => Untouched s₀ s ∧ s.offset = 0 :=
    fun s outcomes h => ⟨Untouched.steady s outcomes h.1, h.2⟩
  apply hsteady.call fun _ h => h.1.intact hcross
  · exact fun e => Triple.pure fun _ h => h.1.intact hcross
  · intro count
    apply Triple.get_bind
    rintro s ⟨hs, hoffset⟩
    have hintact := hs.intact hcross
    cases hd : s.dest with
    | none =>
      rintro - -
      have hnew : s.fresh ≠ src := by
        intro heq
        have hfresh := hcross.fresh
        rw [← hs.fresh, heq, hcross.contents] at hfresh
        cases hfresh
      exact {
        source := hintact.source
        contents := (s.put_ne hnew.symm).trans hintact.contents
        dest := fun d' hd' => by rw [hs.dest, hd'] at hd; cases hd
        dest_eq := rfl
        ne := hnew
        holds := ⟨_, s.put_self, rfl⟩
        offset := hoffset }
    | some d =>
      rintro - -
      have hd₀ : s₀.dest = some d := hs.dest.symm.trans hd
      obtain ⟨n, hn⟩ := Option.isSome_iff_exists.mp (hcross.dest_exists d hd₀)
      have hput : (s.files d).map Node.truncate = some n.truncate := by
        rw [hs.files, hn]
        rfl
      exact {
        source := hintact.source
        contents := (s.put_ne (hne d hd₀).symm).trans hintact.contents
        dest := hintact.dest
        dest_eq := hd
        ne := hne d hd₀
        holds := ⟨_, s.put_self.trans hput, (hreceives d n hd₀ hn).truncate⟩
        offset := hoffset }

/-- A read goes on where the last one ended. -/
theorem Copying.read : Triple (Copying s₀ src c d k done) (read src)
    (Upon (fun chunk s => c.take k ++ chunk = c.take (k + chunk.length) ∧
      Copying s₀ src c d (k + chunk.length) done s) (Intact s₀ src c)) (Intact s₀ src c) := by
  apply Copying.steady.call fun _ h => h.toIntact
  · exact fun e => Triple.pure fun _ h => h.toIntact
  · intro count
    apply Triple.get_bind
    rintro s hs - -
    simp only [contents_eq hs.contents, hs.offset]
    refine ⟨?_, ⟨hs.source, hs.contents, hs.dest⟩, hs.dest_eq, hs.ne, hs.holds, rfl⟩
    rw [List.take_add, ← List.prefix_iff_eq_take.mp (List.take_prefix _ _)]

/-- The bytes that a write reports are in the destination. -/
theorem Copying.write (buf : List UInt8) : Triple (Copying s₀ src c d k done) (write d buf)
    (Upon (fun n s => Copying s₀ src c d k (done ++ buf.take n) s)
      (Copying s₀ src c d k done)) (Intact s₀ src c) := by
  apply Copying.steady.call fun _ h => h.toIntact
  · exact fun e => Triple.pure fun _ h => h
  · intro count
    apply Triple.get_bind
    intro s hs
    obtain ⟨n, hn, hholds⟩ := hs.holds
    cases n with
    | regular contents =>
      simp only [hn]
      rintro - -
      have hput : contents ++ buf.take count = done ++ buf.take (min count buf.length) := by
        rw [show contents = done from hholds, List.append_cancel_left_eq, List.take_eq_take_iff]
        omega
      exact {
        source := hs.source
        contents := (s.put_ne hs.ne.symm).trans hs.contents
        dest := hs.dest
        dest_eq := hs.dest_eq
        ne := hs.ne
        holds := ⟨_, s.put_self, hput⟩
        offset := hs.offset }
    | device => exact hholds.elim
    | directory =>
      simp only [hn]
      exact Triple.pure fun _ h => h.1

theorem Steady.fstatSize (hI : Steady I) : Maintains I (fstatSize d) := by
  apply hI.call fun _ h => h
  · exact fun e => Triple.pure fun _ h => h
  · intro count
    apply Triple.get_bind
    intro s _
    split
    · exact Triple.pure fun _ h => h.1
    · exact Triple.pure fun _ h => h.1

/-- Between mounts nothing is renamed. -/
theorem Untouched.rename (hcross : Crossing s₀ src c) : Triple (Untouched s₀) rename
    (Upon (fun _ _ => False) (Untouched s₀)) (Intact s₀ src c) := by
  apply Untouched.steady.call fun _ h => h.intact hcross
  · exact fun e => Triple.pure fun _ h => h
  · intro count
    apply Triple.get_bind
    intro s hs
    apply Triple.ite
    · intro hsame
      rw [hs.mounts, hcross.mounts] at hsame
      cases hsame
    · exact fun _ => Triple.pure fun _ h => h.1

end Calls

/-! ## The copy -/

theorem Copying.writeAll (rounds : ℕ) : ∀ done buf, Triple (Copying s₀ src c d k done)
    (writeAll rounds d buf)
    (Upon (fun _ => Copying s₀ src c d k (done ++ buf)) (Intact s₀ src c))
    (Intact s₀ src c) := by
  induction rounds with
  | zero =>
    intro done buf
    cases buf with
    | nil => exact Triple.pure fun s h => by simpa [Upon] using h
    | cons b buf => exact Triple.throw fun s h => h.toIntact
  | succ rounds ih =>
    intro done buf
    cases buf with
    | nil => exact Triple.pure fun s h => by simpa [Upon] using h
    | cons b buf =>
      apply Triple.bind (Copying.write (b :: buf))
      intro result
      match result with
      | .ok 0 => exact Triple.pure fun _ h => h.toIntact
      | .ok (n + 1) =>
        have hrest := ih (done ++ (b :: buf).take (n + 1)) ((b :: buf).drop (n + 1))
        rw [List.append_assoc, List.take_append_drop] at hrest
        exact hrest
      | .error e =>
        apply Triple.ite
        · exact fun _ => ih done (b :: buf)
        · exact fun _ => Triple.pure fun _ h => h.toIntact

/-- If nothing goes wrong, then the destination has taken the bytes that are counted. -/
theorem Copying.copyLoop (rounds : ℕ) : ∀ k, Triple (Copying s₀ src c d k (c.take k))
    (copyLoop rounds src d k)
    (fun r s => Intact s₀ src c s ∧
      (r.2 = none → Copying s₀ src c d r.1 (c.take r.1) s)) (Intact s₀ src c) := by
  induction rounds with
  | zero => exact fun k => Triple.throw fun s h => h.toIntact
  | succ rounds ih =>
    intro k
    apply Triple.bind Copying.read
    intro result
    match result with
    | .ok [] => exact Triple.pure fun s h => ⟨h.2.toIntact, fun _ => h.2⟩
    | .ok (b :: chunk) =>
      apply Triple.get_bind
      rintro s ⟨htake, -⟩
      have hwrite : Triple (Copying s₀ src c d (k + (b :: chunk).length) (c.take k)) _ _ _ :=
        Copying.writeAll s.outcomes.length (c.take k) (b :: chunk)
      rw [htake] at hwrite
      apply Triple.bind (hwrite.mono (fun _ h => h.1.2) fun _ _ h => h)
      intro result
      cases result with
      | ok _ => exact ih _
      | error e => exact Triple.pure fun s h => ⟨h, nofun⟩
    | .error e => exact Triple.pure fun s h => ⟨h, nofun⟩

/-! ## The whole move -/

/-- What holds when the program has ended. -/
def Ended (s₀ : World) (src : FileId) (c : List UInt8) (code : ℕ) (s : World) : Prop :=
  Intact s₀ src c s ∨ code = 0 ∧ Moved s₀ c s

theorem Intact.warn_return (text : String) (code : ℕ) :
    Triple (Intact s₀ src c) (do Mv.warn text; return code) (Ended s₀ src c) (Intact s₀ src c) := by
  apply Triple.bind (Intact.warn text)
  exact fun _ => Triple.pure fun _ h => .inl h

theorem Intact.unlinkDest (hdest : s₀.dest = none) : Maintains (Intact s₀ src c) Mv.unlinkDest := by
  apply Intact.steady.call fun _ h => h
  · exact fun e => Triple.pure fun _ h => h
  · intro count s hs
    refine ⟨hs.source, hs.contents, fun d hd => ?_⟩
    rw [hdest] at hd
    cases hd

theorem Copying.unlinkSource (h : Copying s₀ src c d k c s) :
    Moved s₀ c { s with source := none } := by
  obtain ⟨n, hn, hholds⟩ := h.holds
  cases n with
  | regular contents =>
    exact ⟨rfl, ⟨d, h.dest_eq, hn.trans (congrArg _ (congrArg _ hholds))⟩, h.dest⟩
  | device => exact hholds.elim
  | directory => exact absurd hholds.2 hholds.1

variable {dstExisted : Bool}

theorem Intact.finish_some {srcPath text : String} (hdest : dstExisted = false → s₀.dest = none) :
    Triple (Intact s₀ src c) (finish srcPath dstExisted (some text)) (Ended s₀ src c)
      (Intact s₀ src c) := by
  apply Triple.bind (Intact.warn _)
  intro _
  cases dstExisted with
  | true => exact Triple.pure fun _ h => .inl h
  | false =>
    apply Triple.bind (Intact.unlinkDest (hdest rfl))
    exact fun _ => Triple.pure fun _ h => .inl h

variable {srcPath : String}

theorem Copying.finish_none :
    Triple (Copying s₀ src c d k c) (finish srcPath dstExisted none) (Ended s₀ src c)
      (Intact s₀ src c) := by
  have hunlink : Triple (Copying s₀ src c d k c) Mv.unlinkSource
      (Upon (fun _ => Moved s₀ c) (Intact s₀ src c)) (Intact s₀ src c) := by
    apply Copying.steady.call fun _ h => h.toIntact
    · exact fun e => Triple.pure fun _ h => h.toIntact
    · exact fun count _ h => h.unlinkSource
  apply Triple.bind hunlink
  intro result
  cases result with
  | ok _ => exact Triple.pure fun _ h => .inr ⟨rfl, h⟩
  | error e => exact Intact.warn_return _ _

theorem failure_eq_none {ident : Ident} {copied : ℕ} {dstSize : Option ℕ} {failed : Option String}
    (h : failure ident copied dstSize failed = none) : failed = none ∧ copied = ident.size := by
  cases failed with
  | some text => cases h
  | none =>
    by_cases hcopied : copied = ident.size
    · exact ⟨rfl, hcopied⟩
    · rw [failure, if_pos hcopied] at h
      cases h

/-- What `stat` reports of the source. -/
def sourceIdent (src : FileId) (c : List UInt8) : Ident :=
  { id := src, size := c.length, isRegular := true }

variable {dstPath : String}

section Moving

variable (hcross : Crossing s₀ src c)

include hcross

theorem Untouched.statOf_source :
    Triple (Untouched s₀) (statOf World.source)
      (fun r s => r = some (sourceIdent src c) ∧ Untouched s₀ s) (Intact s₀ src c) := by
  apply Triple.get_bind
  intro s hs
  have hintact := hs.intact hcross
  simp only [hintact.source, Option.bind_eq_bind, Option.bind_some, hintact.contents]
  exact Triple.pure fun _ h => ⟨rfl, h.1⟩

theorem Untouched.statOf_dest :
    Triple (Untouched s₀) (statOf World.dest)
      (fun r s => r.map Ident.id = s₀.dest ∧ Untouched s₀ s) (Intact s₀ src c) := by
  apply Triple.get_bind
  intro s hs
  cases hd : s₀.dest with
  | none =>
    simp only [hs.dest, hd]
    exact Triple.pure fun _ h => ⟨rfl, h.1⟩
  | some d =>
    obtain ⟨n, hn⟩ := Option.isSome_iff_exists.mp (hcross.dest_exists d hd)
    simp only [hs.dest, hd, hs.files, Option.bind_eq_bind, Option.bind_some, hn]
    exact Triple.pure fun _ h => ⟨rfl, h.1⟩

variable (hreceives : ∀ d n, s₀.dest = some d → s₀.files d = some n → n.Receives c)

include hreceives

theorem Untouched.copyAndUnlink (hne : ∀ d, s₀.dest = some d → d ≠ src)
    (hdest : dstExisted = false → s₀.dest = none) :
    Triple (Untouched s₀) (copyAndUnlink srcPath dstPath (sourceIdent src c) dstExisted)
      (Ended s₀ src c) (Intact s₀ src c) := by
  apply Triple.bind (Untouched.openSource hcross)
  intro result
  cases result with
  | error e => exact Intact.warn_return _ _
  | ok _ =>
    apply Triple.bind (Untouched.openDest hcross hne hreceives)
    intro result
    cases result with
    | error e => exact Intact.warn_return _ _
    | ok d =>
      apply Triple.get_bind
      intro s _
      apply Triple.bind ((Copying.copyLoop _ 0).mono (fun _ h => h.1) fun _ _ h => h)
      rintro ⟨copied, failed⟩
      have hsteady : Steady fun s => Intact s₀ src c s ∧
          (failed = none → Copying s₀ src c d copied (c.take copied) s) :=
        fun s outcomes h => ⟨Intact.steady s outcomes h.1,
          fun hfailed => Copying.steady s outcomes (h.2 hfailed)⟩
      apply Triple.bind (hsteady.fstatSize.mono_error fun _ h => h.1)
      intro dstSize
      cases hfailure : failure (sourceIdent src c) copied dstSize failed with
      | some text =>
        exact (Intact.finish_some hdest).mono (fun _ h => h.1) fun _ _ h => h
      | none =>
        obtain ⟨hfailed, hcopied⟩ := failure_eq_none hfailure
        have hall : c.take copied = c := by
          rw [hcopied]
          exact List.take_length
        rw [hall]
        exact Copying.finish_none.mono (fun _ h => h.2 hfailed) fun _ _ h => h

theorem Untouched.relocate (hne : ∀ d, s₀.dest = some d → d ≠ src)
    (hdest : dstExisted = false → s₀.dest = none) :
    Triple (Untouched s₀) (relocate srcPath dstPath (sourceIdent src c) dstExisted)
      (Ended s₀ src c) (Intact s₀ src c) := by
  apply Triple.bind (Untouched.rename hcross)
  intro result
  cases result with
  | ok _ => exact fun _ h => h.elim
  | error e =>
    apply Triple.ite
    · exact fun _ => Untouched.copyAndUnlink hcross hreceives hne hdest
    · exact fun _ => (Intact.warn_return _ _).mono (fun _ h => h.intact hcross) fun _ _ h => h

theorem Untouched.main (args : List String) :
    Triple (Untouched s₀) (main args) (Ended s₀ src c) (Intact s₀ src c) := by
  match args with
  | [] | [_] => exact (Intact.warn_return _ _).mono (fun _ h => h.intact hcross) fun _ _ h => h
  | srcPath :: dstPath :: _ =>
    apply Triple.bind (Untouched.statOf_source hcross)
    rintro r s ⟨rfl, hs⟩
    refine Triple.bind (Untouched.statOf_dest hcross) ?_ s hs
    rintro r s ⟨hr, hs⟩
    cases r with
    | none =>
      have hdest : s₀.dest = none := hr.symm
      have hne : ∀ d, s₀.dest = some d → d ≠ src := by simp [hdest]
      exact Untouched.relocate hcross hreceives hne (fun _ => hdest) s hs
    | some dst =>
      have hdest : s₀.dest = some dst.id := hr.symm
      refine Triple.ite (fun _ => ?_) (fun hne => ?_) s hs
      · exact Triple.pure fun _ h => .inl (h.intact hcross)
      · have hne' : ∀ d, s₀.dest = some d → d ≠ src := by
          rintro d hd rfl
          exact hne (Option.some.inj (hdest.symm.trans hd))
        exact Untouched.relocate hcross hreceives hne' nofun

end Moving

/-! ## A destination that keeps nothing -/

section Draining

variable {n : Node} {m : ℕ}

/-- The destination is not a regular file, and `m` more calls succeed, moving byte after byte. -/
structure Draining (src : FileId) (c : List UInt8) (d : FileId) (n : Node) (k m : ℕ) (s : World) :
    Prop where
  source : s.source = some src
  contents : s.files src = some (.regular c)
  dest : s.dest = some d
  node : s.files d = some n
  mounts : s.sameMount = false
  offset : s.offset = k
  outcomes : s.outcomes = List.replicate m (.take 1)

/-- Nothing stops the program. -/
abbrev Never (_ : World) : Prop := False

theorem Draining.next : Triple (Draining src c d n k (m + 1)) Mv.next
    (fun outcome s => outcome = .take 1 ∧ Draining src c d n k m s) Never := by
  intro s hs
  unfold Mv.next
  rw [get_bind_run, hs.outcomes]
  exact ⟨rfl, hs.source, hs.contents, hs.dest, hs.node, hs.mounts, hs.offset, rfl⟩

theorem Draining.rename : Triple (Draining src c d n k (m + 1)) rename
    (fun r s => r = .error EXDEV ∧ Draining src c d n k m s) Never := by
  apply Triple.bind_eq Draining.next
  apply Triple.get_bind
  intro s hs
  rw [hs.mounts]
  exact Triple.pure fun _ h => ⟨rfl, h.1⟩

theorem Draining.openSource : Triple (Draining src c d n k (m + 1)) openSource
    (fun r s => r = .ok () ∧ Draining src c d n 0 m s) Never := by
  apply Triple.bind_eq Draining.next
  exact fun s hs => ⟨rfl, hs.source, hs.contents, hs.dest, hs.node, hs.mounts, rfl, hs.outcomes⟩

theorem Draining.openDest (hn : n.isRegular = false) (hne : d ≠ src) :
    Triple (Draining src c d n k (m + 1)) openDest
      (fun r s => r = .ok d ∧ Draining src c d n k m s) Never := by
  apply Triple.bind_eq Draining.next
  apply Triple.get_bind
  intro s hs
  have hput : (s.files d).map Node.truncate = some n := by
    rw [hs.node]
    cases n with
    | regular contents => cases hn
    | device => rfl
    | directory => rfl
  simp only [hs.dest]
  exact fun _ _ => ⟨rfl, hs.source, (s.put_ne hne.symm).trans hs.contents, hs.dest,
    s.put_self.trans hput, hs.mounts, hs.offset, hs.outcomes⟩

theorem Draining.read : Triple (Draining src c d n k (m + 1)) (read src)
    (fun r s => r = .ok ((c.drop k).take 1) ∧
      Draining src c d n (k + ((c.drop k).take 1).length) m s) Never := by
  apply Triple.bind_eq Draining.next
  apply Triple.get_bind
  intro s hs
  simp only [contents_eq hs.contents, hs.offset]
  exact fun _ _ =>
    ⟨rfl, hs.source, hs.contents, hs.dest, hs.node, hs.mounts, rfl, hs.outcomes⟩

theorem Draining.writeAll (b : UInt8) (rounds : ℕ) :
    Triple (Draining src c d .device k (m + 1)) (writeAll (rounds + 1) d [b])
      (fun r s => r = .ok () ∧ Draining src c d .device k m s) Never := by
  have hwrite : Triple (Draining src c d .device k (m + 1)) (write d [b])
      (fun r s => r = .ok 1 ∧ Draining src c d .device k m s) Never := by
    apply Triple.bind_eq Draining.next
    apply Triple.get_bind
    intro s hs
    simp only [hs.node]
    exact Triple.pure fun _ h => ⟨rfl, h.1⟩
  apply Triple.bind_eq hwrite
  cases rounds with
  | zero => exact Triple.pure fun _ h => ⟨rfl, h⟩
  | succ rounds => exact Triple.pure fun _ h => ⟨rfl, h⟩

theorem Draining.copyLoop (hn : n = .device ∨ c = []) (rest : List UInt8) :
    ∀ k rounds, c.drop k = rest → k + rest.length = c.length → rest.length < rounds →
      Triple (Draining src c d n k (m + 2 * rest.length + 1)) (copyLoop rounds src d k)
        (fun r s => r = (c.length, none) ∧ Draining src c d n c.length m s) Never := by
  induction rest with
  | nil =>
    intro k rounds hrest hk hrounds
    obtain ⟨rounds, rfl⟩ := Nat.exists_eq_add_of_lt hrounds
    apply Triple.bind_eq Draining.read
    rw [hrest]
    obtain rfl : k = c.length := hk
    exact Triple.pure fun _ h => ⟨rfl, h⟩
  | cons b rest ih =>
    intro k rounds hrest hk hrounds
    have hdevice : n = .device := by
      refine hn.resolve_right fun hc => ?_
      rw [hc, List.drop_nil] at hrest
      cases hrest
    subst hdevice
    obtain ⟨rounds, rfl⟩ := Nat.exists_eq_add_of_lt hrounds
    simp only [List.length_cons] at hk hrounds
    have hcalls : m + 2 * (b :: rest).length = m + 2 * rest.length + 1 + 1 := by
      rw [List.length_cons]
      omega
    apply Triple.bind_eq Draining.read
    rw [hrest, hcalls]
    apply Triple.get_bind
    intro s hs
    rw [hs.outcomes, List.length_replicate]
    refine Triple.mono ?_ (fun _ h => h.1) fun _ _ h => h
    apply Triple.bind_eq (Draining.writeAll b _)
    exact ih (k + 1) _ (by rw [← List.drop_drop, hrest]; rfl) (by omega) (by omega)

/-- What has no size is not compared. -/
theorem Draining.fstatSize (hn : n.isRegular = false) :
    Triple (Draining src c d n k (m + 1)) (fstatSize d)
      (fun r s => r = none ∧ Draining src c d n k m s) Never := by
  apply Triple.bind_eq Draining.next
  apply Triple.get_bind
  intro s hs
  simp only [hs.node]
  cases n with
  | regular contents => cases hn
  | device => exact Triple.pure fun _ h => ⟨rfl, h.1⟩
  | directory => exact Triple.pure fun _ h => ⟨rfl, h.1⟩

/-- The source is gone, and the destination is what it was. -/
structure Lost (d : FileId) (n : Node) (s : World) : Prop where
  source : s.source = none
  dest : s.dest = some d
  node : s.files d = some n

theorem Draining.finish :
    Triple (Draining src c d n k (m + 1)) (finish srcPath dstExisted none)
      (fun _ => Lost d n) Never := by
  have hunlink : Triple (Draining src c d n k (m + 1)) unlinkSource
      (fun r s => r = .ok () ∧ Lost d n s) Never := by
    apply Triple.bind_eq Draining.next
    exact fun s hs => ⟨rfl, rfl, hs.dest, hs.node⟩
  apply Triple.bind_eq hunlink
  exact Triple.pure fun _ h => h

theorem Draining.copyAndUnlink (hregular : n.isRegular = false) (hn : n = .device ∨ c = [])
    (hne : d ≠ src) :
    Triple (Draining src c d n k (2 * c.length + 5))
      (copyAndUnlink srcPath dstPath (sourceIdent src c) dstExisted) (fun _ => Lost d n) Never := by
  apply Triple.bind_eq Draining.openSource
  apply Triple.bind_eq (Draining.openDest hregular hne)
  apply Triple.get_bind
  intro s hs
  have hcalls : 2 * c.length + 3 = 2 + 2 * c.length + 1 := by omega
  rw [hs.outcomes, List.length_replicate, hcalls]
  refine Triple.mono ?_ (fun _ h => h.1) fun _ _ h => h
  apply Triple.bind_eq
    (Draining.copyLoop hn c 0 (2 + 2 * c.length + 1) rfl (Nat.zero_add _) (by omega))
  apply Triple.bind_eq (Draining.fstatSize hregular)
  have hfailure : failure (sourceIdent src c) c.length none none = none := by
    simp [failure, sourceIdent]
  rw [hfailure]
  exact Draining.finish

theorem Draining.main (srcPath dstPath : String) (rest : List String)
    (hregular : n.isRegular = false) (hn : n = .device ∨ c = []) (hne : d ≠ src) :
    Triple (Draining src c d n k (2 * c.length + 6)) (main (srcPath :: dstPath :: rest))
      (fun _ => Lost d n) Never := by
  have hsource : Triple (Draining src c d n k (2 * c.length + 6)) (statOf World.source)
      (fun r s => r = some (sourceIdent src c) ∧ Draining src c d n k (2 * c.length + 6) s)
      Never := by
    apply Triple.get_bind
    intro s hs
    simp only [hs.source, Option.bind_eq_bind, Option.bind_some, hs.contents]
    exact Triple.pure fun _ h => ⟨rfl, h.1⟩
  have hdest : Triple (Draining src c d n k (2 * c.length + 6)) (statOf World.dest)
      (fun r s => r = some { id := d, size := n.contents.length, isRegular := n.isRegular } ∧
        Draining src c d n k (2 * c.length + 6) s) Never := by
    apply Triple.get_bind
    intro s hs
    simp only [hs.dest, Option.bind_eq_bind, Option.bind_some, hs.node]
    exact Triple.pure fun _ h => ⟨rfl, h.1⟩
  apply Triple.bind_eq hsource
  apply Triple.bind_eq hdest
  apply Triple.ite
  · exact fun heq => absurd heq hne
  · intro _
    apply Triple.bind_eq Draining.rename
    exact Draining.copyAndUnlink hregular hn hne

end Draining

/-! ## Moves that lose nothing -/

/-- A destination that does not receive the bytes loses them in some run. -/
theorem exists_lost (hcross : Crossing s₀ src c) (hd : s₀.dest = some d) {n : Node}
    (hn : s₀.files d = some n) (hreceives : ¬n.Receives c) (srcPath dstPath : String)
    (rest : List String) :
    ∃ outcomes, ¬Safe s₀ src c
      (main (srcPath :: dstPath :: rest) { s₀ with outcomes := outcomes }) := by
  have hkind : n.isRegular = false ∧ (n = .device ∨ c = []) := by
    cases n with
    | regular contents => exact absurd trivial hreceives
    | device => exact ⟨rfl, .inl rfl⟩
    | directory => exact ⟨rfl, .inr (Decidable.not_not.mp hreceives)⟩
  have hne : d ≠ src := by
    rintro rfl
    rw [hcross.contents] at hn
    rw [← Option.some.inj hn] at hkind
    cases hkind.1
  refine ⟨List.replicate (2 * c.length + 6) (.take 1), fun hsafe => ?_⟩
  have hlost := Draining.main srcPath dstPath rest hkind.1 hkind.2 hne
    { s₀ with outcomes := List.replicate (2 * c.length + 6) (.take 1) }
    ⟨hcross.source, hcross.contents, hd, hn, hcross.mounts, rfl, rfl⟩
  cases hrun : main (srcPath :: dstPath :: rest)
      { s₀ with outcomes := List.replicate (2 * c.length + 6) (.take 1) } with
  | error e s =>
    rw [hrun] at hlost
    exact hlost
  | ok code s =>
    rw [hrun] at hlost hsafe
    rcases hsafe with hintact | ⟨-, hmoved⟩
    · cases hintact.source.symm.trans hlost.source
    · obtain ⟨d', hd', hc⟩ := hmoved.contents
      obtain rfl : d = d' := Option.some.inj (hlost.dest.symm.trans hd')
      rw [Option.some.inj (hlost.node.symm.trans hc)] at hkind
      cases hkind.1

/-- A file with two bytes on one mount, and a destination on the other. -/
def smallWorld (dest : Option Node) : World where
  files f := if f = (1, 2) then some (.regular [0x68, 0x69]) else if f = (2, 3) then dest else none
  source := some (1, 2)
  dest := dest.map fun _ => (2, 3)
  fresh := (2, 4)
  sameMount := false

theorem smallWorld_crossing (dest : Option Node) :
    Crossing (smallWorld dest) (1, 2) [0x68, 0x69] where
  source := rfl
  contents := rfl
  dest_exists d hd := by
    cases dest with
    | none => cases hd
    | some n =>
      cases hd
      rfl
  fresh := rfl
  mounts := rfl

end RacOS.Coreutils.Mv
