import RacOS.Vfs.Tmpfs

/-!
# Calls of tmpfs

A call changes a tmpfs in four ways only: it relabels a node, adds an empty one,
releases one, or stores the data of one.  A property that these changes keep is
kept by every call, and holds of every state that calls lead to.
-/

namespace RacOS.Vfs.Tmpfs

open Program

/-! ## Runs -/

/-- The calls that change a tmpfs. -/
inductive Op
  | createFile (parentIno : ℕ) (name : List UInt8)
  | createDir (parentIno : ℕ) (name : List UInt8)
  | unlink (parentIno : ℕ) (name : List UInt8)
  | rename (oldParent : ℕ) (oldName : List UInt8) (newParent : ℕ)
      (newName : List UInt8)
  | write (ino : ℕ) (offset : UInt64) (buf : List UInt8)
  | truncate (ino : ℕ) (len : UInt64)
  | setMetadata (ino : ℕ) (info : InodeMetadata)

def Op.run : Op → TmpfsM Unit
  | .createFile parentIno name => do let _ ← Tmpfs.createFile parentIno name
  | .createDir parentIno name => do let _ ← Tmpfs.createDir parentIno name
  | .unlink parentIno name => Tmpfs.unlink parentIno name
  | .rename oldParent oldName newParent newName =>
    Tmpfs.rename oldParent oldName newParent newName
  | .write ino offset buf => do let _ ← Tmpfs.write ino offset buf
  | .truncate ino len => Tmpfs.truncate ino len
  | .setMetadata ino info => Tmpfs.setMetadata ino info

/-- The states of a tmpfs after calls that returned, with a value or an
error. -/
inductive Reachable : Tmpfs → Prop
  | new : Reachable Tmpfs.new
  | step {fs : Tmpfs} (h : Reachable fs) (op : Op)
      (hlive : ∀ fs', op.run fs ≠ .error .panic fs') : Reachable (final op.run fs)

/-! ## Kept properties -/

/-- A property of tmpfs states that every change keeps. -/
structure Kept (I : Tmpfs → Prop) : Prop where
  relabel {fs : Tmpfs} (h : I fs) (ino : ℕ) {f : TmpfsNode → TmpfsNode}
    (hf : ∀ n, (f n).ino = n.ino ∧ (f n).data = n.data ∧ (f n).removed = n.removed)
    (hchildren : ∀ n, ∀ c ∈ (f n).children,
      c ∈ n.children ∨ c < fs.nodes.length) : I (fs.modifyNode ino f)
  push {fs : Tmpfs} (h : I fs) (name : List UInt8) (fileType : FileType)
    (mode : UInt32) : I { fs with
      nodes := fs.nodes ++ [TmpfsNode.empty name fs.nodes.length fileType mode] }
  release {fs : Tmpfs} (h : I fs) {ino : ℕ} {node : TmpfsNode}
    (hnode : fs.nodes[ino]? = some node) :
    I { fs.modifyNode ino fun n => { n with data := [], removed := true } with
      totalBytes := fs.totalBytes - node.data.length }
  store {fs : Tmpfs} (h : I fs) {ino : ℕ} {node : TmpfsNode}
    (hnode : fs.nodes[ino]? = some node) (hlive : node.removed = false)
    (f : List UInt8 → List UInt8) {total : ℕ}
    (htotal : node.data.length ≤ fs.totalBytes →
      fs.totalBytes ≤ tmpfsMaxSize → total ≤ tmpfsMaxSize ∧
        total + node.data.length = fs.totalBytes + (f node.data).length) :
    I { fs.modifyNode ino fun n => { n with data := f n.data } with
      totalBytes := total }

/-- A property that the changes of names and attributes keep. -/
structure NamesKept (I : Tmpfs → Prop) : Prop where
  relabel {fs : Tmpfs} (h : I fs) (ino : ℕ) {f : TmpfsNode → TmpfsNode}
    (hf : ∀ n, ((f n).ino = n.ino ∧ (f n).data = n.data ∧ (f n).removed = n.removed) ∧
      (f n).fileType = n.fileType)
    (hchildren : ∀ n, ∀ c ∈ (f n).children, c ∈ n.children ∨ c < fs.nodes.length) :
    I (fs.modifyNode ino f)
  push {fs : Tmpfs} (h : I fs) (name : List UInt8) (fileType : FileType) (mode : UInt32) :
    I { fs with nodes := fs.nodes ++ [TmpfsNode.empty name fs.nodes.length fileType mode] }
  release {fs : Tmpfs} (h : I fs) {ino : ℕ} {node : TmpfsNode}
    (hnode : fs.nodes[ino]? = some node) :
    I { fs.modifyNode ino fun n => { n with data := [], removed := true } with
      totalBytes := fs.totalBytes - node.data.length }

theorem Kept.names {I : Tmpfs → Prop} (h : Kept I) : NamesKept I where
  relabel hfs ino _ hf hchildren := h.relabel hfs ino (fun n => (hf n).1) hchildren
  push := h.push
  release := h.release

/-- Programs that keep a property, of states with at least `k` nodes. -/
abbrev Keeps (I : Tmpfs → Prop) (k : ℕ) {α : Type} (x : TmpfsM α) : Prop :=
  Generated (fun fs => I fs ∧ k ≤ fs.nodes.length)
    (fun _ x => ∀ fs, I fs ∧ k ≤ fs.nodes.length →
      I (final x fs) ∧ k ≤ (final x fs).nodes.length) α x

variable {fs : Tmpfs}

theorem Keeps.final {I : Tmpfs → Prop} {k : ℕ} {α : Type} {x : TmpfsM α} (h : Keeps I k x)
    (hfs : I fs) (hk : k ≤ fs.nodes.length) : I (final x fs) ∧ k ≤ (final x fs).nodes.length :=
  (h.final_rel (R := fun _ _ => True) (fun _ => trivial)
    (fun _ _ => trivial) (fun _ _ hx s hs => ⟨hx s hs, trivial⟩) fs ⟨hfs, hk⟩).1

variable {ino : ℕ}

section Names

variable {I : Tmpfs → Prop} {k : ℕ}

theorem length_modifyNode (fs : Tmpfs) (ino : ℕ) (f : TmpfsNode → TmpfsNode) :
    (fs.modifyNode ino f).nodes.length = fs.nodes.length :=
  List.length_modify ..

theorem nodeAt_keeps (ino : ℕ) : Keeps I k (nodeAt ino) := by
  refine .get_bind fun fs _ => ?_
  cases fs.nodes[ino]? with
  | none => exact .throw _
  | some node => exact .pure node

theorem nodeAt_run {node : TmpfsNode} (h : fs.nodes[ino]? = some node) :
    nodeAt ino fs = .ok node fs := by
  rw [nodeAt, get_bind_run, h]
  rfl

theorem nodeAt_run_none (h : fs.nodes[ino]? = none) : nodeAt ino fs = .error .panic fs := by
  rw [nodeAt, get_bind_run, h]
  rfl

variable (hI : NamesKept I)
include hI

theorem modifyNode_keeps (ino : ℕ) {f : TmpfsNode → TmpfsNode}
    (hf : ∀ n, ((f n).ino = n.ino ∧ (f n).data = n.data ∧ (f n).removed = n.removed) ∧
      (f n).fileType = n.fileType)
    (hchildren : ∀ n, ∀ c ∈ (f n).children, c ∈ n.children ∨ c < k) :
    Keeps I k (modify fun fs => fs.modifyNode ino f) := by
  refine .prim fun fs ⟨hfs, hk⟩ => ⟨?_, ?_⟩
  · exact hI.relabel hfs ino hf fun n c hc =>
      (hchildren n c hc).imp_right fun hlt => Nat.lt_of_lt_of_le hlt hk
  · rw [final_modify, length_modifyNode]
    exact hk

theorem releaseNode_keeps (ino : ℕ) : Keeps I k (releaseNode ino) := by
  refine .prim fun fs ⟨hfs, hk⟩ => ?_
  rw [releaseNode, final_bind]
  cases hnode : fs.nodes[ino]? with
  | none =>
    rw [nodeAt_run_none hnode]
    exact ⟨hfs, hk⟩
  | some node =>
    rw [nodeAt_run hnode]
    exact ⟨hI.release hfs hnode, (length_modifyNode ..).symm ▸ hk⟩

theorem removeChild_keeps (ino idx : ℕ) : Keeps I k (removeChild ino idx) := by
  refine .bind (nodeAt_keeps ino) fun node => ?_
  split
  · exact modifyNode_keeps hI ino (fun _ => ⟨⟨rfl, rfl, rfl⟩, rfl⟩)
      fun _ _ hc => Or.inl (List.mem_of_mem_eraseIdx hc)
  · exact .throw _

theorem createNode_keeps (parentIno : ℕ) (name : List UInt8) (fileType : FileType) (mode : UInt32) :
    Keeps I k (createNode parentIno name fileType mode) := by
  refine .get_bind fun fs ⟨hfs, hk⟩ => .ofExcept_bind fun existing _ =>
    .require_bind fun _ => .prim fun _ _ => ?_
  -- The new node is there when its parent lists it.
  have hpush := hI.push hfs name fileType mode
  refine ⟨hI.relabel hpush parentIno (fun _ => ⟨⟨rfl, rfl, rfl⟩, rfl⟩)
    fun n c hc => ?_, ?_⟩
  · rcases List.mem_append.mp hc with hc | hc
    · exact Or.inl hc
    · refine Or.inr ?_
      rw [List.mem_singleton.mp hc]
      simp
  · change k ≤ (Tmpfs.modifyNode _ _ _).nodes.length
    rw [length_modifyNode, List.length_append]
    exact Nat.le_add_right_of_le hk

theorem unlink_keeps (parentIno : ℕ) (name : List UInt8) : Keeps I k (unlink parentIno name) := by
  refine .get_bind fun fs _ => .ofExcept_bind fun found _ => ?_
  cases found with
  | none => exact .throw _
  | some found =>
    exact .bind (nodeAt_keeps _) fun child => .require_bind fun _ =>
      .bind (releaseNode_keeps hI _) fun _ => removeChild_keeps hI _ _

theorem replaceTarget_keeps (newParent : ℕ) (existing : Option (ℕ × ℕ)) :
    Keeps I k (replaceTarget newParent existing) := by
  cases existing with
  | none => exact .pure ()
  | some found =>
    exact .bind (releaseNode_keeps hI _) fun _ => removeChild_keeps hI _ _

omit hI in
theorem sourceIndex_keeps (oldParent newParent srcIno srcIdx : ℕ) (existing : Option (ℕ × ℕ)) :
    Keeps I k (sourceIndex oldParent newParent srcIno srcIdx existing) := by
  rw [sourceIndex]
  split
  · refine .bind (nodeAt_keeps _) fun parent => ?_
    cases parent.children.idxOf? srcIno with
    | none => exact .throw _
    | some i => exact .pure i
  · exact .pure _

theorem renameMove_keeps (oldParent newParent : ℕ) (newName : List UInt8) (srcIdx : ℕ)
    {srcIno : ℕ} (hsrc : srcIno < k) (existing : Option (ℕ × ℕ)) :
    Keeps I k (renameMove oldParent newParent newName srcIdx srcIno existing) := by
  refine .bind (replaceTarget_keeps hI _ _) fun _ =>
    .bind (sourceIndex_keeps _ _ _ _ _) fun _ =>
    .bind (modifyNode_keeps hI srcIno (fun _ => ⟨⟨rfl, rfl, rfl⟩, rfl⟩)
      fun _ _ hc => Or.inl hc) fun _ => ?_
  split
  · refine .bind (removeChild_keeps hI _ _) fun _ =>
      modifyNode_keeps hI newParent (fun _ => ⟨⟨rfl, rfl, rfl⟩, rfl⟩) fun n c hc => ?_
    rcases List.mem_append.mp hc with hc | hc
    · exact Or.inl hc
    · exact Or.inr (List.mem_singleton.mp hc ▸ hsrc)
  · exact .pure ()

omit hI in
/-- Deciding whether a target may be replaced changes nothing. -/
theorem checkReplace_final (srcIsDir : Bool) (existing : Option (ℕ × ℕ))
    (fs : Tmpfs) : final (checkReplace srcIsDir existing) fs = fs := by
  cases existing with
  | none => rfl
  | some found =>
    rw [checkReplace, final_congr (get_bind_run ..), final_bind]
    cases hdst : fs.nodes[found.2]? with
    | none =>
      rw [nodeAt_run_none hdst]
    | some dst =>
      rw [nodeAt_run hdst]
      cases srcIsDir <;> cases hdir : decide (dst.fileType = .directory) <;>
        simp only [hdir]
      · rfl
      · rfl
      · rfl
      · rw [require]
        split <;> rfl

omit hI in
/-- A rename decides on the state it finds, and then moves the name of a node
that is there. -/
theorem rename_final (oldParent : ℕ) (oldName : List UInt8) (newParent : ℕ)
    (newName : List UInt8) (fs : Tmpfs) :
    final (rename oldParent oldName newParent newName) fs = fs ∨
      ∃ srcIdx srcIno existing, srcIno < fs.nodes.length ∧
        final (rename oldParent oldName newParent newName) fs =
          final (renameMove oldParent newParent newName srcIdx srcIno existing)
            fs := by
  rw [rename, final_require_bind]
  by_cases hname : newName = []
  · exact Or.inl (if_neg (not_not_intro hname))
  rw [if_pos hname, final_congr (get_bind_run ..), final_ofExcept_bind]
  cases fs.findChild oldParent oldName with
  | error e => exact Or.inl rfl
  | ok found =>
  cases found with
  | none => exact Or.inl rfl
  | some found =>
  obtain ⟨srcIdx, srcIno⟩ := found
  dsimp only
  rw [final_ofExcept_bind]
  cases fs.findChild newParent newName with
  | error e => exact Or.inl rfl
  | ok existing =>
  dsimp only
  rw [final_bind]
  cases hsrc : fs.nodes[srcIno]? with
  | none =>
    rw [nodeAt_run_none hsrc]
    exact Or.inl rfl
  | some src =>
  rw [nodeAt_run hsrc]
  dsimp only
  split
  · exact Or.inl rfl
  rw [final_bind]
  have hcheck := checkReplace_final (decide (src.fileType = .directory)) existing fs
  cases hrun : checkReplace (decide (src.fileType = .directory)) existing fs with
  | error e fs₁ =>
    rw [final_of_error hrun] at hcheck
    exact Or.inl hcheck
  | ok u fs₁ =>
    rw [final_of_ok hrun] at hcheck
    subst hcheck
    dsimp only
    rw [checkSubtree, bind_assoc, final_congr (get_bind_run ..), final_require_bind]
    split
    · exact Or.inr ⟨srcIdx, srcIno, existing, (List.getElem?_eq_some_iff.mp hsrc).1, rfl⟩
    · exact Or.inl rfl

theorem rename_keeps (oldParent : ℕ) (oldName : List UInt8) (newParent : ℕ) (newName : List UInt8) :
    Keeps I k (rename oldParent oldName newParent newName) := by
  refine .prim fun fs ⟨hfs, hk⟩ => ?_
  rcases rename_final oldParent oldName newParent newName fs with
    hsame | ⟨srcIdx, srcIno, existing, hsrc, hfinal⟩
  · rw [hsame]
    exact ⟨hfs, hk⟩
  · rw [hfinal]
    have hmove := (renameMove_keeps (k := fs.nodes.length) hI oldParent
      newParent newName srcIdx hsrc existing).final hfs (Nat.le_refl _)
    exact ⟨hmove.1, Nat.le_trans hk hmove.2⟩

theorem setMetadata_keeps (ino : ℕ) (info : InodeMetadata) : Keeps I k (setMetadata ino info) := by
  refine .get_bind fun fs hfs => ?_
  cases fs.nodes[ino]? with
  | none => exact .throw _
  | some node =>
    exact .require_bind fun _ => .prim fun _ _ =>
      ⟨hI.relabel hfs.1 ino (fun _ => ⟨⟨rfl, rfl, rfl⟩, rfl⟩) fun _ _ hc => Or.inl hc,
        (length_modifyNode ..).symm ▸ hfs.2⟩

end Names

/-! ## File data -/

variable {a b : ℕ}

theorem checkedAdd_of_lt (h : a + b < 2 ^ 64) : checkedAdd a b = pure (a + b) :=
  if_pos h

theorem checkedAdd_of_ge (h : 2 ^ 64 ≤ a + b) : checkedAdd a b = throw .panic :=
  if_neg (Nat.not_lt.mpr h)

theorem checkedAdd_bind_keeps {I : Tmpfs → Prop} {k : ℕ} {α : Type} {f : ℕ → TmpfsM α}
    (hf : Keeps I k (f (a + b))) : Keeps I k (checkedAdd a b >>= f) := by
  by_cases h : a + b < 2 ^ 64
  · rw [checkedAdd_of_lt h]
    exact hf
  · rw [checkedAdd_of_ge (Nat.not_lt.mp h)]
    change Keeps I k (MonadExcept.throw Failure.panic : TmpfsM α)
    exact .throw _

theorem length_resize (data : List UInt8) (len : ℕ) : (resize data len).length = len := by
  simp only [resize, List.length_append, List.length_take, List.length_replicate]
  omega

theorem length_overwrite {data buf : List UInt8} {off : ℕ} (h : off + buf.length ≤ data.length) :
    (data.take off ++ buf ++ data.drop (off + buf.length)).length = data.length := by
  simp only [List.length_append, List.length_take, List.length_drop]
  omega

theorem fileNode_ok {node : TmpfsNode} (h : fs.fileNode ino = .ok node) :
    fs.nodes[ino]? = some node ∧ node.removed = false := by
  rw [fileNode] at h
  cases hnode : fs.nodes[ino]? with
  | none => simp [hnode] at h
  | some n =>
    simp only [hnode] at h
    by_cases hremoved : n.removed
    · simp [hremoved] at h
    · by_cases hdir : n.fileType = .directory
      · simp [hremoved, hdir] at h
      · simp only [hremoved, hdir, if_false] at h
        cases h
        exact ⟨rfl, by simpa using hremoved⟩

theorem length_written (data buf : List UInt8) (off : ℕ) :
    let grown := if data.length < off + buf.length
      then resize data (off + buf.length) else data
    (grown.take off ++ buf ++ grown.drop (off + buf.length)).length =
      max (off + buf.length) data.length := by
  intro grown
  have hgrown : grown.length = max (off + buf.length) data.length := by
    by_cases h : data.length < off + buf.length
    · rw [show grown = resize data (off + buf.length) from if_pos h, length_resize]
      omega
    · rw [show grown = data from if_neg h]
      omega
  rw [length_overwrite (by omega), hgrown]

section Files

variable {I : Tmpfs → Prop} {k : ℕ} (hI : Kept I)
include hI

theorem write_keeps (ino : ℕ) (offset : UInt64) (buf : List UInt8) :
    Keeps I k (write ino offset buf) := by
  refine .get_bind fun fs hfs => .ofExcept_bind fun node hnode =>
    checkedAdd_bind_keeps (checkedAdd_bind_keeps (.require_bind fun hfits =>
    .bind (.prim fun _ _ => ?_) fun _ => .pure _))
  obtain ⟨hnode, hlive⟩ := fileNode_ok hnode
  refine ⟨hI.store hfs.1 hnode hlive (fun _ => _) fun _ _ => ⟨hfits, ?_⟩,
    (length_modifyNode ..).symm ▸ hfs.2⟩
  have := length_written node.data buf offset.toNat
  dsimp only at this ⊢
  rw [this]
  omega

theorem truncate_keeps (ino : ℕ) (len : UInt64) : Keeps I k (truncate ino len) := by
  refine .get_bind fun fs hfs => .ofExcept_bind fun node hnode => ?_
  obtain ⟨hnode, hlive⟩ := fileNode_ok hnode
  have hset : (node.data.length < len.toNat →
        fs.totalBytes + (len.toNat - node.data.length) ≤ tmpfsMaxSize) →
      Keeps I k (do
        let total ← checkedAdd fs.totalBytes len.toNat
        set { fs.modifyNode ino fun n =>
            { n with data := resize n.data len.toNat } with
          totalBytes := total - node.data.length } : TmpfsM Unit) := by
    intro hgrow
    refine checkedAdd_bind_keeps (.prim fun _ _ => ?_)
    refine ⟨hI.store hfs.1 hnode hlive (resize · len.toNat)
      fun hle hfits => ⟨?_, ?_⟩, (length_modifyNode ..).symm ▸ hfs.2⟩
    · omega
    · rw [length_resize]
      omega
  dsimp only
  by_cases hlen : node.data.length < len.toNat
  · rw [checkGrowth, if_pos hlen, bind_assoc]
    exact checkedAdd_bind_keeps (.require_bind fun hfits => hset fun _ => hfits)
  · rw [checkGrowth, if_neg hlen]
    exact .bind (.pure ()) fun _ => hset fun h => absurd h hlen

theorem Op.keeps (op : Op) : Keeps I k op.run := by
  cases op with
  | createFile parentIno name =>
    exact .bind (createNode_keeps hI.names _ _ _ _) fun _ => .pure ()
  | createDir parentIno name =>
    exact .bind (createNode_keeps hI.names _ _ _ _) fun _ => .pure ()
  | unlink parentIno name => exact unlink_keeps hI.names _ _
  | rename oldParent oldName newParent newName => exact rename_keeps hI.names _ _ _ _
  | write ino offset buf => exact .bind (write_keeps hI _ _ _) fun _ => .pure ()
  | truncate ino len => exact truncate_keeps hI _ _
  | setMetadata ino info => exact setMetadata_keeps hI.names _ _

/-- What holds of a new tmpfs and is kept holds in every reachable state. -/
theorem Reachable.kept (hnew : I Tmpfs.new) (h : Reachable fs) : I fs := by
  induction h with
  | new => exact hnew
  | step _ op _ ih => exact ((op.keeps hI).final ih (Nat.zero_le _)).1

end Files

end RacOS.Vfs.Tmpfs
