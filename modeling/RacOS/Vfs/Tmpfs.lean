import RacOS.Lib.Program
import RacOS.Vfs.Mount

/-!
# tmpfs

The model of `vfs/tmpfs.rs`: the nodes of an in-memory filesystem, the
operations on names and the operations of an inode handle that change a file.  Names
are byte strings, offsets and lengths of a handle's calls are 64-bit words.  A
sum that leaves the 64-bit range ends in a panic: with overflow checks at the
sum itself, without them at the slice or the allocation the wrapped value leads
to.
-/

namespace RacOS.Vfs

open Program

/-- Maximum total bytes stored in a single tmpfs instance (16 MiB). -/
abbrev tmpfsMaxSize : ℕ := 16 * 1024 * 1024

/-- A node in the tmpfs tree, either a file or a directory. -/
structure TmpfsNode where
  name : List UInt8
  ino : ℕ
  fileType : FileType
  mode : FileMode
  uid : UInt32
  gid : UInt32
  data : List UInt8
  children : List ℕ
  removed : Bool
  deriving DecidableEq

/-- The tmpfs filesystem state. -/
structure Tmpfs where
  nodes : List TmpfsNode
  totalBytes : ℕ
  deriving DecidableEq

/-- Operations on a tmpfs. -/
abbrev TmpfsM := EStateM (Failure VfsError) Tmpfs

/-- A node without data and children, owned by root. -/
def TmpfsNode.empty (name : List UInt8) (ino : ℕ) (fileType : FileType)
    (mode : UInt32) : TmpfsNode :=
  { name, ino, fileType, mode := FileMode.new mode, uid := 0, gid := 0
    data := [], children := [], removed := false }

/-- Add machine words; the sum must fit one. -/
def checkedAdd (a b : ℕ) : TmpfsM ℕ :=
  if a + b < 2 ^ 64 then pure (a + b) else throw .panic

/-- `Vec::resize` with zeros. -/
def resize (data : List UInt8) (len : ℕ) : List UInt8 :=
  data.take len ++ List.replicate (len - data.length) 0

namespace Tmpfs

/-- A tmpfs with nothing but its root directory. -/
def new : Tmpfs :=
  { nodes := [TmpfsNode.empty [47] 0 .directory 0o755], totalBytes := 0 }

/-! ## Reading the tree -/

/-- The node `ino`, which has to be a directory. -/
def dirNode (fs : Tmpfs) (ino : ℕ) : Except VfsError TmpfsNode :=
  match fs.nodes[ino]? with
  | none => .error .notFound
  | some node =>
    if node.fileType ≠ .directory ∨ node.removed then .error .notADirectory
    else .ok node

/-- Whether `ino` is a live node called `name`. -/
def isNamed (fs : Tmpfs) (name : List UInt8) (ino : ℕ) : Bool :=
  match fs.nodes[ino]? with
  | some node => !node.removed && node.name == name
  | none => false

/-- The first live node called `name` in a list of children, with its
position. -/
def findNamed (fs : Tmpfs) (name : List UInt8) : List ℕ → Option (ℕ × ℕ)
  | [] => none
  | c :: rest =>
    if fs.isNamed name c then some (0, c)
    else (fs.findNamed name rest).map fun (i, c) => (i + 1, c)

/-- The live child of directory `parentIno` called `name`, with its position in
the parent's list. -/
def findChild (fs : Tmpfs) (parentIno : ℕ) (name : List UInt8) :
    Except VfsError (Option (ℕ × ℕ)) := do
  let parent ← fs.dirNode parentIno
  pure (fs.findNamed name parent.children)

/-- How many of a node's children are live. -/
def liveChildren (fs : Tmpfs) (node : TmpfsNode) : ℕ :=
  node.children.countP fun c =>
    match fs.nodes[c]? with
    | some n => !n.removed
    | none => false

/-- Whether `ino` is a live directory. -/
def isLiveDir (fs : Tmpfs) (ino : ℕ) : Bool :=
  match fs.nodes[ino]? with
  | some node => decide (node.fileType = .directory) && !node.removed
  | none => false

/-- The loop of `is_below` over the children of one node: `none` if the
directory looked for is among them, else the stack with the subdirectories. -/
def pushChildren (fs : Tmpfs) (dir : ℕ) : List ℕ → List ℕ → Option (List ℕ)
  | [], stack => some stack
  | c :: rest, stack =>
    if c = dir then none
    else if fs.isLiveDir c then fs.pushChildren dir rest (c :: stack)
    else fs.pushChildren dir rest stack

/-- The loop of `is_below`, with the number of visits still allowed; a cycle is
as bad as a hit. -/
def isBelowLoop (fs : Tmpfs) (dir : ℕ) : (visits : ℕ) → List ℕ → Bool
  | _, [] => false
  | 0, _ :: _ => true
  | visits + 1, cur :: stack =>
    match fs.nodes[cur]? with
    | none => fs.isBelowLoop dir visits stack
    | some node =>
      match fs.pushChildren dir node.children stack with
      | none => true
      | some stack => fs.isBelowLoop dir visits stack

/-- Whether directory `dir` lies anywhere below directory `top`. -/
def isBelow (fs : Tmpfs) (top dir : ℕ) : Bool :=
  fs.isBelowLoop dir (fs.nodes.length + 1) [top]

/-! ## Changing nodes -/

/-- Change the node `ino` in place. -/
def modifyNode (fs : Tmpfs) (ino : ℕ) (f : TmpfsNode → TmpfsNode) : Tmpfs :=
  { fs with nodes := fs.nodes.modify ino f }

/-- The node `ino`, by indexing: there has to be one. -/
def nodeAt (ino : ℕ) : TmpfsM TmpfsNode := do
  let fs ← get
  match fs.nodes[ino]? with
  | some node => pure node
  | none => throw .panic

/-- Free the data of a node and mark it removed. -/
def releaseNode (ino : ℕ) : TmpfsM Unit := do
  let node ← nodeAt ino
  modify fun fs =>
    { fs.modifyNode ino fun n => { n with data := [], removed := true } with
      totalBytes := fs.totalBytes - node.data.length }

/-- `Vec::remove` on the children of a node. -/
def removeChild (ino idx : ℕ) : TmpfsM Unit := do
  let node ← nodeAt ino
  if idx < node.children.length then
    modify fun fs => fs.modifyNode ino fun n =>
      { n with children := n.children.eraseIdx idx }
  else throw .panic

/-! ## Names -/

/-- Create an empty node in a directory. -/
def createNode (parentIno : ℕ) (name : List UInt8) (fileType : FileType)
    (mode : UInt32) : TmpfsM ℕ := do
  let fs ← get
  let existing ← ofExcept (fs.findChild parentIno name)
  require (existing = none) (.error .alreadyExists)
  let ino := fs.nodes.length
  set { fs with nodes := fs.nodes ++ [TmpfsNode.empty name ino fileType mode] }
  modify fun fs => fs.modifyNode parentIno fun n =>
    { n with children := n.children ++ [ino] }
  pure ino

/-- Create a file in a parent directory. -/
def createFile (parentIno : ℕ) (name : List UInt8) : TmpfsM ℕ :=
  createNode parentIno name .regular 0o644

/-- Create a directory in a parent directory. -/
def createDir (parentIno : ℕ) (name : List UInt8) : TmpfsM ℕ :=
  createNode parentIno name .directory 0o755

/-- Remove a file or empty directory from a parent.  The child and the parent
were just found, so looking them up again succeeds whichever way it is done. -/
def unlink (parentIno : ℕ) (name : List UInt8) : TmpfsM Unit := do
  let fs ← get
  match ← ofExcept (fs.findChild parentIno name) with
  | none => throw (.error .notFound)
  | some (idx, childIno) =>
    let child ← nodeAt childIno
    require (¬(child.fileType = .directory ∧ 0 < fs.liveChildren child))
      (.error .invalidArgument)
    releaseNode childIno
    removeChild parentIno idx

/-- Refuse to rename over an existing target of the wrong kind. -/
def checkReplace (srcIsDir : Bool) : Option (ℕ × ℕ) → TmpfsM Unit
  | none => pure ()
  | some (_, dstIno) => do
    let fs ← get
    let dst ← nodeAt dstIno
    match srcIsDir, decide (dst.fileType = .directory) with
    | true, false => throw (.error .notADirectory)
    | false, true => throw (.error .isADirectory)
    | true, true =>
      require (¬0 < fs.liveChildren dst) (.error .directoryNotEmpty)
    | false, false => pure ()

/-- Refuse to move a directory into or below itself. -/
def checkSubtree (srcIsDir : Bool) (oldParent newParent srcIno : ℕ) : TmpfsM Unit := do
  let fs ← get
  require (¬(srcIsDir ∧ oldParent ≠ newParent ∧
    (newParent = srcIno ∨ fs.isBelow srcIno newParent))) (.error .invalidArgument)

/-- Release the node a rename replaces, as `unlink` does. -/
def replaceTarget (newParent : ℕ) : Option (ℕ × ℕ) → TmpfsM Unit
  | none => pure ()
  | some (dstIdx, dstIno) => do
    releaseNode dstIno
    removeChild newParent dstIdx

/-- The position of the source in its parent's list once the target is gone; it
may have shifted if the target shared the parent. -/
def sourceIndex (oldParent newParent srcIno srcIdx : ℕ) (existing : Option (ℕ × ℕ)) : TmpfsM ℕ :=
  if oldParent = newParent ∧ existing.isSome then do
    let parent ← nodeAt oldParent
    match parent.children.idxOf? srcIno with
    | some i => pure i
    | none => throw (.error .notFound)
  else pure srcIdx

/-- The part of `rename` that moves the name once every refusal is decided. -/
def renameMove (oldParent newParent : ℕ) (newName : List UInt8)
    (srcIdx srcIno : ℕ) (existing : Option (ℕ × ℕ)) : TmpfsM Unit := do
  replaceTarget newParent existing
  let srcIdx ← sourceIndex oldParent newParent srcIno srcIdx existing
  modify fun fs => fs.modifyNode srcIno fun n => { n with name := newName }
  if oldParent ≠ newParent then
    removeChild oldParent srcIdx
    modify fun fs => fs.modifyNode newParent fun n =>
      { n with children := n.children ++ [srcIno] }
  else pure ()

/-- Rename `oldName` in `oldParent` to `newName` in `newParent`. -/
def rename (oldParent : ℕ) (oldName : List UInt8) (newParent : ℕ)
    (newName : List UInt8) : TmpfsM Unit := do
  require (newName ≠ []) (.error .invalidArgument)
  let fs ← get
  match ← ofExcept (fs.findChild oldParent oldName) with
  | none => throw (.error .notFound)
  | some (srcIdx, srcIno) =>
    let existing ← ofExcept (fs.findChild newParent newName)
    let src ← nodeAt srcIno
    let srcIsDir := decide (src.fileType = .directory)
    if existing.map Prod.snd = some srcIno then pure ()
    else
      checkReplace srcIsDir existing
      checkSubtree srcIsDir oldParent newParent srcIno
      renameMove oldParent newParent newName srcIdx srcIno existing

/-! ## Inode handles -/

/-- The node behind a handle that reads or writes file data. -/
def fileNode (fs : Tmpfs) (ino : ℕ) : Except VfsError TmpfsNode :=
  match fs.nodes[ino]? with
  | none => .error .notFound
  | some node =>
    if node.removed then .error .notFound
    else if node.fileType = .directory then .error .isADirectory
    else .ok node

/-- Write `buf` into file `ino` at `offset`, extending the file with zeros as
needed. -/
def write (ino : ℕ) (offset : UInt64) (buf : List UInt8) : TmpfsM ℕ := do
  let fs ← get
  let node ← ofExcept (fs.fileNode ino)
  let off := offset.toNat
  let stop ← checkedAdd off buf.length
  let oldLen := node.data.length
  let growth := max stop oldLen - oldLen
  let total ← checkedAdd fs.totalBytes growth
  require (total ≤ tmpfsMaxSize) (.error .noSpace)
  let data := if oldLen < stop then resize node.data stop else node.data
  set { fs.modifyNode ino fun n =>
      { n with data := data.take off ++ buf ++ data.drop stop } with
    totalBytes := total }
  pure buf.length

/-- Refuse to grow a file beyond the capacity. -/
def checkGrowth (total oldLen newLen : ℕ) : TmpfsM Unit :=
  if oldLen < newLen then do
    let total ← checkedAdd total (newLen - oldLen)
    require (total ≤ tmpfsMaxSize) (.error .noSpace)
  else pure ()

/-- Set the length of file `ino`. -/
def truncate (ino : ℕ) (len : UInt64) : TmpfsM Unit := do
  let fs ← get
  let node ← ofExcept (fs.fileNode ino)
  let newLen := len.toNat
  let oldLen := node.data.length
  checkGrowth fs.totalBytes oldLen newLen
  let total ← checkedAdd fs.totalBytes newLen
  set { fs.modifyNode ino fun n => { n with data := resize n.data newLen } with
    totalBytes := total - oldLen }

/-- Get inode metadata; a removed node still has some. -/
def metadata (fs : Tmpfs) (ino : ℕ) : Except VfsError InodeMetadata :=
  match fs.nodes[ino]? with
  | none => .error .notFound
  | some node => .ok
    { ino := node.ino
      fileType := node.fileType
      mode := node.mode
      uid := node.uid
      gid := node.gid
      size := node.data.length
      nlink := if node.fileType = .directory then 2 else 1 }

/-- Update mode, owner and group. -/
def setMetadata (ino : ℕ) (info : InodeMetadata) : TmpfsM Unit := do
  let fs ← get
  match fs.nodes[ino]? with
  | none => throw (.error .notFound)
  | some node =>
    require (node.removed = false) (.error .notFound)
    set (fs.modifyNode ino fun n =>
      { n with mode := FileMode.new info.mode.bits
               uid := info.uid
               gid := info.gid })

/-- Look up a name in the directory behind a handle. -/
def lookup (fs : Tmpfs) (ino : ℕ) (name : List UInt8) : Except VfsError ℕ := do
  match ← fs.findChild ino name with
  | none => .error .notFound
  | some (_, child) => pure child

/-- The inode `ino`, if it is live. -/
def getInode (fs : Tmpfs) (ino : ℕ) : Except VfsError ℕ :=
  match fs.nodes[ino]? with
  | none => .error .notFound
  | some node => if node.removed then .error .notFound else .ok ino

/-! ## Paths and mounting -/

/-- The tmpfs as it is mounted; a handle is an inode number. -/
def filesystem (fs : Tmpfs) : Filesystem (Except VfsError) ℕ :=
  { rootInode := 0
    getInode := fs.getInode
    metadata := fs.metadata
    lookup := fs.lookup }

/-- A tmpfs with an empty file `f` in its root. -/
def oneFile : Tmpfs := final (createFile 0 [102]) new

end Tmpfs

end RacOS.Vfs
