import RacOS.Vfs.TmpfsCalls

/-!
# File contents in tmpfs

A file is a length with bytes that are zero beyond it.  Whatever calls are made, on this node and
on others, a file that has not been removed has the contents that its own writes and truncations
give it, and a read hands out a piece of them.
-/

namespace RacOS.Vfs

open Program

/-! ## Files in their own terms -/

/-- A file: the bytes beyond its length are zero. -/
structure File where
  len : ℕ
  byte : ℕ → UInt8

namespace File

def ofData (data : List UInt8) : File := ⟨data.length, fun i => data.getD i 0⟩

/-- Put bytes at an offset, beyond the end if need be. -/
def write (f : File) (off : ℕ) (buf : List UInt8) : File where
  len := max (off + buf.length) f.len
  byte i := if off ≤ i ∧ i < off + buf.length then buf.getD (i - off) 0 else f.byte i

def truncate (f : File) (len : ℕ) : File where
  len := len
  byte i := if i < len then f.byte i else 0

/-- At most `count` bytes from an offset on. -/
def piece (f : File) (off count : ℕ) : List UInt8 :=
  (List.range (min count (f.len - off))).map fun i => f.byte (off + i)

theorem getD_resize (data : List UInt8) (len i : ℕ) :
    (resize data len).getD i 0 = if i < len then data.getD i 0 else 0 := by
  unfold resize
  simp only [List.getD_eq_getElem?_getD, List.getElem?_append, List.length_take,
    List.getElem?_take, List.getElem?_replicate]
  grind

theorem ofData_resize (data : List UInt8) (len : ℕ) :
    ofData (resize data len) = (ofData data).truncate len := by
  unfold ofData truncate
  rw [Tmpfs.length_resize, funext (getD_resize data len)]

theorem ofData_written (data buf : List UInt8) (off : ℕ) {grown : List UInt8}
    (h : grown = if data.length < off + buf.length then resize data (off + buf.length) else data) :
    ofData (grown.take off ++ buf ++ grown.drop (off + buf.length)) =
      (ofData data).write off buf := by
  have hgrown (i : ℕ) : grown.getD i 0 = data.getD i 0 ∧ off + buf.length ≤ grown.length := by
    split at h
    · rw [h, getD_resize, Tmpfs.length_resize]
      refine ⟨?_, Nat.le_refl _⟩
      split
      · rfl
      · simp [List.getElem?_eq_none (show data.length ≤ i by omega)]
    · subst h
      exact ⟨rfl, by omega⟩
  have hbyte (i : ℕ) : (grown.take off ++ buf ++ grown.drop (off + buf.length)).getD i 0 =
      if off ≤ i ∧ i < off + buf.length then buf.getD (i - off) 0 else data.getD i 0 := by
    obtain ⟨hpad, hlen⟩ := hgrown i
    rw [← hpad]
    have hoff : min off grown.length = off := by omega
    simp only [List.getD_eq_getElem?_getD, List.getElem?_append, List.length_take,
      List.length_append, List.getElem?_take, List.getElem?_drop, hoff]
    by_cases hi : i < off + buf.length
    · rw [if_pos hi]
      split
      · rw [if_neg (by omega)]
      · rw [if_pos (by omega)]
    · rw [if_neg hi, if_neg (by omega), Nat.add_sub_cancel' (Nat.not_lt.mp hi)]
  unfold ofData write
  rw [funext hbyte, h]
  exact congrArg (File.mk · _) (Tmpfs.length_written data buf off)

theorem piece_ofData (data : List UInt8) (off count : ℕ) :
    (ofData data).piece off count = (data.drop off).take (min count (data.length - off)) := by
  refine List.ext_getElem (by simp [piece, ofData]) fun i hi hi' => ?_
  simp only [piece, ofData, List.length_map, List.length_range] at hi
  simp only [piece, ofData, List.getElem_map, List.getElem_range, List.getElem_take,
    List.getElem_drop]
  exact (List.getElem_eq_getD 0).symm

end File

namespace Tmpfs

/-! ## Reading -/

/-- The bytes that a read from `offset` on puts into a buffer of `count` bytes. -/
def read (fs : Tmpfs) (ino : ℕ) (offset : UInt64) (count : ℕ) : Except VfsError (List UInt8) := do
  let node ← fs.fileNode ino
  let off := offset.toNat
  if node.data.length ≤ off then pure []
  else pure ((node.data.drop off).take (min count (node.data.length - off)))

/-- The file `ino` has these contents, unless it has been removed. -/
def FileIs (ino : ℕ) (f : File) (fs : Tmpfs) : Prop :=
  ∃ node, fs.nodes[ino]? = some node ∧ node.fileType ≠ .directory ∧
    (node.removed = false → File.ofData node.data = f)

variable {fs : Tmpfs} {ino : ℕ} {f : File}

theorem FileIs.read (h : FileIs ino f fs) (offset : UInt64) (count : ℕ) :
    fs.read ino offset count = .ok (f.piece offset.toNat count) ∨
      fs.read ino offset count = .error .notFound ∧ fs.getInode ino = .error .notFound := by
  obtain ⟨node, hnode, htype, hdata⟩ := h
  cases hremoved : node.removed with
  | true =>
    refine .inr ⟨?_, ?_⟩
    · simp [Tmpfs.read, fileNode, hnode, hremoved]
      rfl
    · simp [getInode, hnode, hremoved]
  | false =>
    obtain rfl := hdata hremoved
    have hfile : fs.fileNode ino = .ok node := by simp [fileNode, hnode, hremoved, htype]
    refine .inl ?_
    rw [Tmpfs.read, hfile, File.piece_ofData]
    by_cases hlen : node.data.length ≤ offset.toNat <;> simp [bind, Except.bind, hlen] <;> rfl

/-! ## What a call does to a file -/

theorem FileIs.modify (h : FileIs ino f fs) {f' : File} {i : ℕ} {g : TmpfsNode → TmpfsNode}
    (htype : ∀ n, (g n).fileType = n.fileType) (hother : i ≠ ino → f' = f)
    (hdata : i = ino → ∀ n, fs.nodes[i]? = some n → (g n).removed = false →
      n.removed = false ∧ (File.ofData n.data = f → File.ofData (g n).data = f')) (total : ℕ) :
    FileIs ino f' { fs.modifyNode i g with totalBytes := total } := by
  obtain ⟨node, hnode, hfile, hf⟩ := h
  have hget : (fs.nodes.modify i g)[ino]? = some (if i = ino then g node else node) := by
    rw [List.getElem?_modify, hnode]
    rfl
  refine ⟨_, hget, ?_⟩
  split
  · rename_i heq
    refine ⟨(htype node).symm ▸ hfile, fun hlive => ?_⟩
    obtain ⟨hlive', hupd⟩ := hdata heq node (heq ▸ hnode) hlive
    exact hupd (hf hlive')
  · rename_i hne
    rw [hother hne]
    exact ⟨hfile, hf⟩

/-- Calls on names and attributes leave the contents of files alone. -/
theorem fileIs_namesKept (ino : ℕ) (f : File) : NamesKept (FileIs ino f) where
  relabel {fs} h i g hg _ := by
    refine h.modify (fun n => (hg n).2) (fun _ => rfl) (fun _ n _ hlive => ?_) fs.totalBytes
    obtain ⟨-, hdata, hremoved⟩ := (hg n).1
    exact ⟨hremoved ▸ hlive, fun hf => hdata ▸ hf⟩
  push h _ _ _ := by
    obtain ⟨node, hnode, hfile⟩ := h
    have hlt := (List.getElem?_eq_some_iff.mp hnode).1
    exact ⟨node, (List.getElem?_append_left hlt).trans hnode, hfile⟩
  release h _ _ _ := by
    refine h.modify ?_ (fun _ => rfl) ?_ _
    · exact fun _ => rfl
    · intro _ _ _ hlive
      cases hlive

section Stores

variable {i : ℕ} {upd : File → File} {α : Type} {x : TmpfsM α}

/-- The call fails and changes nothing, or it changes the data of the file `i`. -/
def Stores (fs : Tmpfs) (i : ℕ) (upd : File → File) (x : TmpfsM α) : Prop :=
  (∃ e, x fs = .error e fs) ∨
    ∃ (node : TmpfsNode) (g : List UInt8 → List UInt8) (total : ℕ) (a : α),
      fs.nodes[i]? = some node ∧ File.ofData (g node.data) = upd (File.ofData node.data) ∧
      x fs = .ok a { fs.modifyNode i fun n => { n with data := g n.data } with totalBytes := total }

theorem Stores.checkedAdd_bind {a b : ℕ} {k : ℕ → TmpfsM α} (h : Stores fs i upd (k (a + b))) :
    Stores fs i upd (checkedAdd a b >>= k) := by
  unfold checkedAdd
  split
  · exact h
  · exact .inl ⟨_, rfl⟩

theorem Stores.require_bind {p : Prop} [Decidable p] {e : Failure VfsError} {k : Unit → TmpfsM α}
    (h : Stores fs i upd (k ())) : Stores fs i upd (require p e >>= k) := by
  unfold require
  split
  · exact h
  · exact .inl ⟨_, rfl⟩

theorem Stores.fileNode_bind {k : Tmpfs → TmpfsNode → TmpfsM α}
    (h : ∀ node, fs.nodes[i]? = some node → Stores fs i upd (k fs node)) :
    Stores fs i upd (do let fs ← get; k fs (← ofExcept (fs.fileNode i))) := by
  change Stores fs i upd (ofExcept (fs.fileNode i) >>= k fs)
  cases hnode : fs.fileNode i with
  | error e => exact .inl ⟨_, rfl⟩
  | ok node => exact h node (fileNode_ok hnode).1

theorem write_stores (i : ℕ) (offset : UInt64) (buf : List UInt8) :
    Stores fs i (·.write offset.toNat buf) (write i offset buf) := by
  refine .fileNode_bind fun node hnode => ?_
  refine .checkedAdd_bind (.checkedAdd_bind (.require_bind ?_))
  refine .inr ⟨node, fun _ => _, _, _, hnode, ?_, rfl⟩
  exact File.ofData_written node.data buf _ rfl

theorem truncate_stores (i : ℕ) (len : UInt64) :
    Stores fs i (·.truncate len.toNat) (truncate i len) := by
  refine .fileNode_bind fun node hnode => ?_
  have hset : Stores fs i (·.truncate len.toNat) (do
      let total ← checkedAdd fs.totalBytes len.toNat
      set { fs.modifyNode i fun n => { n with data := resize n.data len.toNat } with
        totalBytes := total - node.data.length } : TmpfsM Unit) :=
    .checkedAdd_bind (.inr ⟨node, (resize · len.toNat), _, (), hnode, File.ofData_resize .., rfl⟩)
  dsimp only
  unfold checkGrowth
  split
  · rw [bind_assoc]
    exact .checkedAdd_bind (.require_bind hset)
  · exact hset

theorem Stores.discard (h : Stores fs i upd x) : Stores fs i upd (do let _ ← x) := by
  rcases h with ⟨e, he⟩ | ⟨node, g, total, a, hnode, hdata, hok⟩
  · exact .inl ⟨e, bind_of_error he⟩
  · exact .inr ⟨node, g, total, (), hnode, hdata, bind_of_ok hok⟩

/-- A file that the call is about changes with it, and no other. -/
theorem Stores.fileIs (hx : Stores fs i upd x) (h : FileIs ino f fs) :
    FileIs ino (if (outcome x fs).isOk then if i = ino then upd f else f else f) (final x fs) := by
  rcases hx with ⟨e, he⟩ | ⟨node, g, total, a, hnode, hdata, hok⟩
  · rw [final_of_error he, outcome, he]
    exact h
  · rw [final_of_ok hok, outcome, hok]
    refine h.modify ?_ (fun hne => if_neg hne) ?_ total
    · exact fun _ => rfl
    · rintro heq n hn hlive
      cases hn.symm.trans hnode
      refine ⟨hlive, fun hf => ?_⟩
      rw [if_pos heq, ← hf]
      exact hdata

end Stores

/-! ## Runs -/

/-- What a call that succeeds does to the file `ino`. -/
def Op.apply (ino : ℕ) (f : File) : Op → File
  | .write i offset buf => if i = ino then f.write offset.toNat buf else f
  | .truncate i len => if i = ino then f.truncate len.toNat else f
  | _ => f

/-- The state after calls. -/
def runAll (ops : List Op) (fs : Tmpfs) : Tmpfs := ops.foldl (fun fs op => final op.run fs) fs

/-- The contents of the file `ino` after calls, by its own writes and truncations that succeed. -/
def follow (ino : ℕ) : List Op → Tmpfs → File → File
  | [], _, f => f
  | op :: ops, fs, f =>
    follow ino ops (final op.run fs) (if (outcome op.run fs).isOk then op.apply ino f else f)

/-- A call does to a file what it should, or nothing. -/
theorem Op.fileIs (op : Op) (h : FileIs ino f fs) :
    FileIs ino (if (outcome op.run fs).isOk then op.apply ino f else f) (final op.run fs) := by
  have hnames {x : TmpfsM Unit} (hx : Keeps (FileIs ino f) 0 x) :
      FileIs ino (if (outcome x fs).isOk then f else f) (final x fs) := by
    rw [ite_self]
    exact (hx.final h (Nat.zero_le _)).1
  have hkept := fileIs_namesKept ino f
  cases op with
  | createFile parentIno name =>
    exact hnames (.bind (createNode_keeps hkept _ _ _ _) fun _ => .pure ())
  | createDir parentIno name =>
    exact hnames (.bind (createNode_keeps hkept _ _ _ _) fun _ => .pure ())
  | unlink parentIno name => exact hnames (unlink_keeps hkept _ _)
  | rename oldParent oldName newParent newName => exact hnames (rename_keeps hkept _ _ _ _)
  | write i offset buf => exact (write_stores i offset buf).discard.fileIs h
  | truncate i len => exact (truncate_stores i len).fileIs h
  | setMetadata i info => exact hnames (setMetadata_keeps hkept _ _)

/-- **Contents of a file.**  After calls on any nodes, a read of a file hands out a piece of the
contents that its own successful writes and truncations gave it, unless it has been removed. -/
theorem read_runAll {node : TmpfsNode} (hnode : fs.nodes[ino]? = some node)
    (hfile : node.fileType ≠ .directory) (ops : List Op) (offset : UInt64) (count : ℕ) :
    (runAll ops fs).read ino offset count =
        .ok ((follow ino ops fs (.ofData node.data)).piece offset.toNat count) ∨
      (runAll ops fs).read ino offset count = .error .notFound ∧
        (runAll ops fs).getInode ino = .error .notFound := by
  have hrun (f : File) (h : FileIs ino f fs) :
      FileIs ino (follow ino ops fs f) (runAll ops fs) := by
    clear hnode
    induction ops generalizing fs f with
    | nil => exact h
    | cons op ops ih => exact ih _ (op.fileIs h)
  exact (hrun _ ⟨node, hnode, hfile, fun _ => rfl⟩).read offset count

/-- A file is written beyond its end and then cut. -/
theorem read_runAll_oneFile :
    (runAll [.write 1 2 [97, 98], .truncate 1 3] oneFile).read 1 1 8 = .ok [0, 97] :=
  (@read_runAll oneFile 1 (.empty [102] 1 .regular 0o644) rfl (by decide)
    [.write 1 2 [97, 98], .truncate 1 3] 1 8).resolve_right fun h => by cases h.1

end Tmpfs

end RacOS.Vfs
