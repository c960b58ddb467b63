import Mathlib.Algebra.Order.BigOperators.Group.List
import Mathlib.Algebra.Order.Group.Nat
import RacOS.Vfs.TmpfsCalls

/-!
# Space accounting of tmpfs

In every reachable state the counter of a tmpfs is the number of bytes its live
nodes hold, and within the capacity.  A call that would go beyond the capacity
is refused without a trace as long as the number of bytes it asks for is a
machine word; beyond that range the sum that is to be compared with the
capacity overflows, and the call ends in a panic.
-/

namespace RacOS.Vfs.Tmpfs

open Program

/-- The bytes that the live nodes hold. -/
def liveBytes (fs : Tmpfs) : ℕ :=
  ((fs.nodes.filter fun n => !n.removed).map fun n => n.data.length).sum

/-- How many bytes the filesystem would hold if the call were carried out. -/
def Op.wants (fs : Tmpfs) : Op → ℕ
  | .write ino offset buf =>
    match fs.fileNode ino with
    | .ok node =>
      fs.totalBytes + (offset.toNat + buf.length - node.data.length)
    | .error _ => fs.totalBytes
  | .truncate ino len =>
    match fs.fileNode ino with
    | .ok node => fs.totalBytes + (len.toNat - node.data.length)
    | .error _ => fs.totalBytes
  | _ => fs.totalBytes

/-! ## The invariant -/

/-- The counter is the size of all data, none of it in removed nodes. -/
structure Accounted (fs : Tmpfs) : Prop where
  emptied : ∀ n ∈ fs.nodes, n.removed → n.data = []
  total : fs.totalBytes = (fs.nodes.map fun n => n.data.length).sum
  fits : fs.totalBytes ≤ tmpfsMaxSize

variable {α : Type}

theorem sum_map_modify {l : List α} {i : ℕ} {a : α} (h : l[i]? = some a) (f : α → ℕ) (g : α → α) :
    ((l.modify i g).map f).sum + f a = (l.map f).sum + f (g a) := by
  induction l generalizing i with
  | nil => simp at h
  | cons b l ih =>
    cases i with
    | zero =>
      obtain rfl : b = a := by simpa using h
      simp only [List.modify_zero_cons, List.map_cons, List.sum_cons]
      omega
    | succ i =>
      have := ih (i := i) (by simpa using h)
      simp only [List.modify_succ_cons, List.map_cons, List.sum_cons]
      omega

theorem mem_modify {l : List α} {i : ℕ} {g : α → α} {b : α} (h : b ∈ l.modify i g) :
    b ∈ l ∨ ∃ a, l[i]? = some a ∧ b = g a := by
  obtain ⟨j, hj⟩ := List.mem_iff_getElem?.mp h
  rw [List.getElem?_modify] at hj
  by_cases hij : i = j
  · subst hij
    simp only [if_true] at hj
    obtain ⟨a, ha, hab⟩ := Option.map_eq_some_iff.mp hj
    exact .inr ⟨a, ha, hab.symm⟩
  · have hj : l[j]? = some b := by simpa [hij] using hj
    exact .inl (List.mem_of_getElem? hj)

variable {fs : Tmpfs} {ino : ℕ} {node : TmpfsNode}

namespace Accounted

theorem total_eq_liveBytes (h : Accounted fs) : fs.totalBytes = fs.liveBytes := by
  have hlist : ∀ l : List TmpfsNode, (∀ n ∈ l, n.removed → n.data = []) →
      (l.map fun n => n.data.length).sum =
        ((l.filter fun n => !n.removed).map fun n => n.data.length).sum := by
    intro l hl
    induction l with
    | nil => rfl
    | cons n l ih =>
      have ih := ih fun m hm => hl m (List.mem_cons_of_mem _ hm)
      by_cases hn : n.removed
      · simp [hn, ih, hl n List.mem_cons_self hn]
      · simp [hn, ih]
  rw [h.total, liveBytes]
  exact hlist fs.nodes h.emptied

theorem length_le (h : Accounted fs) (hnode : fs.nodes[ino]? = some node) :
    node.data.length ≤ fs.totalBytes := by
  rw [h.total]
  exact List.single_le_sum (fun _ _ => Nat.zero_le _) _
    (List.mem_map.mpr ⟨node, List.mem_of_getElem? hnode, rfl⟩)

theorem change (h : Accounted fs) {f : TmpfsNode → TmpfsNode} {total : ℕ}
    (hnode : fs.nodes[ino]? = some node) (hremoved : (f node).removed → (f node).data = [])
    (htotal : total + node.data.length =
      fs.totalBytes + (f node).data.length) (hfits : total ≤ tmpfsMaxSize) :
    Accounted { fs.modifyNode ino f with totalBytes := total } where
  emptied n hn := by
    rcases mem_modify hn with hn | ⟨a, ha, rfl⟩
    · exact h.emptied n hn
    · rw [hnode] at ha
      cases ha
      exact hremoved
  total := by
    have := sum_map_modify hnode (fun n => n.data.length) f
    have := h.total
    dsimp only [modifyNode]
    omega
  fits := hfits

theorem modifyNode (h : Accounted fs) (ino : ℕ) {f : TmpfsNode → TmpfsNode}
    (hdata : ∀ n, (f n).data = n.data) (hremoved : ∀ n, (f n).removed = n.removed) :
    Accounted (fs.modifyNode ino f) := by
  cases hnode : fs.nodes[ino]? with
  | none =>
    have hlen : fs.nodes.length ≤ ino := List.getElem?_eq_none_iff.mp hnode
    have hself : fs.modifyNode ino f = fs := by
      rw [Tmpfs.modifyNode, List.modify_eq_self hlen]
    rwa [hself]
  | some node =>
    change Accounted
      { fs.modifyNode ino f with totalBytes := fs.totalBytes }
    refine h.change hnode ?_ (by rw [hdata]) h.fits
    rw [hdata, hremoved]
    exact h.emptied node (List.mem_of_getElem? hnode)

theorem push (h : Accounted fs) (name : List UInt8) (ino : ℕ)
    (fileType : FileType) (mode : UInt32) :
    Accounted { fs with
      nodes := fs.nodes ++ [TmpfsNode.empty name ino fileType mode] } where
  emptied n hn := by
    rcases List.mem_append.mp hn with hn | hn
    · exact h.emptied n hn
    · rw [List.mem_singleton.mp hn]
      exact fun _ => rfl
  total := by simp [h.total, TmpfsNode.empty]
  fits := h.fits

end Accounted

theorem accounted_new : Accounted Tmpfs.new where
  emptied := by decide
  total := rfl
  fits := Nat.zero_le _

theorem kept_accounted : Kept Accounted where
  relabel h ino _ hf _ :=
    h.modifyNode ino (fun n => (hf n).2.1) fun n => (hf n).2.2
  push h name fileType mode := h.push name _ fileType mode
  release h _ _ hnode := by
    have hle := h.length_le hnode
    have hfits := h.fits
    exact h.change hnode (fun _ => rfl)
      (by rw [Nat.sub_add_cancel hle]; rfl) (by omega)
  store h _ _ hnode hlive f _ htotal := by
    obtain ⟨hfits, htotal⟩ := htotal (h.length_le hnode) h.fits
    exact h.change hnode (fun hremoved => absurd hremoved (by simp [hlive]))
      htotal hfits

theorem Reachable.accounted (h : Reachable fs) : Accounted fs :=
  h.kept kept_accounted accounted_new

/-! ## Calls beyond the capacity -/

/-- How a call that would go beyond the capacity ends. -/
def refusal (wants : ℕ) : Failure VfsError :=
  if wants < 2 ^ 64 then .error .noSpace else .panic

theorem checkedAdd_require_beyond {a b : ℕ} {f : ℕ → TmpfsM α}
    (h : tmpfsMaxSize < a + b) :
    (do
      let total ← checkedAdd a b
      require (total ≤ tmpfsMaxSize) (.error .noSpace)
      f total : TmpfsM α) fs = .error (refusal (a + b)) fs := by
  by_cases hadd : a + b < 2 ^ 64
  · rw [checkedAdd_of_lt hadd, pure_bind, refusal, if_pos hadd]
    exact bind_of_error
      (require_error_iff.mpr ⟨Nat.not_le.mpr h, rfl, rfl⟩)
  · rw [checkedAdd_of_ge (Nat.not_lt.mp hadd), refusal, if_neg hadd]
    rfl

theorem write_beyond (hfs : Accounted fs) {offset : UInt64} {buf : List UInt8}
    (hnode : fs.fileNode ino = .ok node) (h : tmpfsMaxSize <
      fs.totalBytes + (offset.toNat + buf.length - node.data.length)) :
    write ino offset buf fs = .error (refusal
      (fs.totalBytes + (offset.toNat + buf.length - node.data.length))) fs := by
  have hle := hfs.length_le (fileNode_ok hnode).1
  have hmax : max (offset.toNat + buf.length) node.data.length -
      node.data.length = offset.toNat + buf.length - node.data.length := by
    omega
  rw [write, get_bind_run, ofExcept_bind_run, hnode]
  dsimp only
  by_cases hstop : offset.toNat + buf.length < 2 ^ 64
  · rw [checkedAdd_of_lt hstop, pure_bind, hmax]
    exact checkedAdd_require_beyond h
  · -- The end of the write is a summand of what is asked for.
    rw [checkedAdd_of_ge (Nat.not_lt.mp hstop), refusal, if_neg (by omega)]
    rfl

theorem truncate_beyond (hfs : Accounted fs) {len : UInt64}
    (hnode : fs.fileNode ino = .ok node) (h : tmpfsMaxSize <
      fs.totalBytes + (len.toNat - node.data.length)) :
    truncate ino len fs = .error
      (refusal (fs.totalBytes + (len.toNat - node.data.length))) fs := by
  have hfits := hfs.fits
  have hlen : node.data.length < len.toNat := by omega
  rw [truncate, get_bind_run, ofExcept_bind_run, hnode]
  dsimp only
  rw [checkGrowth, if_pos hlen, bind_assoc]
  exact checkedAdd_require_beyond h

/-- A call that would go beyond the capacity is refused or panics, by the size
of what it asks for. -/
theorem Op.run_beyond (hfs : Accounted fs) {op : Op} (h : tmpfsMaxSize < op.wants fs) :
    op.run fs = .error (refusal (op.wants fs)) fs := by
  have hfits := hfs.fits
  cases op with
  | write ino offset buf =>
    rw [Op.wants] at h ⊢
    cases hnode : fs.fileNode ino with
    | error e =>
      simp only [hnode] at h
      omega
    | ok node =>
      simp only [hnode] at h
      exact bind_of_error (write_beyond hfs hnode h)
  | truncate ino len =>
    rw [Op.wants] at h ⊢
    cases hnode : fs.fileNode ino with
    | error e =>
      simp only [hnode] at h
      omega
    | ok node =>
      simp only [hnode] at h
      exact truncate_beyond hfs hnode h
  | _ => exact absurd h (Nat.not_lt.mpr hfits)

/-- In every reachable state the counter is the number of bytes that live nodes
hold and within the capacity; a call that would go beyond it fails and changes
nothing exactly when what it asks for is a machine word. -/
theorem space_accounting_iff (h : Reachable fs) (op : Op) :
    fs.totalBytes = fs.liveBytes ∧ fs.totalBytes ≤ tmpfsMaxSize ∧
      ((tmpfsMaxSize < op.wants fs → ∃ e, op.run fs = .error (.error e) fs) ↔
        op.wants fs < 2 ^ 64) := by
  have hfs := h.accounted
  refine ⟨hfs.total_eq_liveBytes, hfs.fits, fun hrefused => ?_, fun hword hbeyond => ?_⟩
  · by_contra hword
    have hbeyond : tmpfsMaxSize < op.wants fs :=
      lt_of_lt_of_le (by decide : tmpfsMaxSize < 2 ^ 64) (Nat.not_lt.mp hword)
    obtain ⟨e, he⟩ := hrefused hbeyond
    rw [Op.run_beyond hfs hbeyond, refusal, if_neg hword] at he
    cases he
  · refine ⟨.noSpace, ?_⟩
    rw [Op.run_beyond hfs hbeyond, refusal, if_pos hword]

/-- Two files, the first with a byte in it. -/
def sampleTmpfs : Tmpfs :=
  final (Op.write 1 0 [7]).run <| final (Op.createFile 0 [98]).run <|
    final (Op.createFile 0 [97]).run Tmpfs.new

theorem sampleTmpfs_reachable : Reachable sampleTmpfs :=
  ((Reachable.new.step (.createFile 0 [97]) nofun).step
    (.createFile 0 [98]) nofun).step (.write 1 0 [7]) nofun

/-- A file is asked to grow beyond the capacity, by less than a machine word. -/
theorem space_accounting_iff_seventeenMiB :
    Reachable sampleTmpfs ∧ sampleTmpfs.liveBytes = 1 ∧
      tmpfsMaxSize < Op.wants sampleTmpfs (.truncate 2 0x1100000) ∧
      ∃ e, (Op.truncate 2 0x1100000).run sampleTmpfs = .error (.error e) sampleTmpfs := by
  have h := space_accounting_iff sampleTmpfs_reachable (.truncate 2 0x1100000)
  refine ⟨sampleTmpfs_reachable, rfl, by decide, ?_⟩
  exact h.2.2.mpr (by decide) (by decide)

/-- While one file holds a byte, truncating another to the largest length
panics. -/
theorem truncate_to_max_panics :
    Reachable sampleTmpfs ∧ tmpfsMaxSize < Op.wants sampleTmpfs (.truncate 2 0xFFFFFFFFFFFFFFFF) ∧
      (Op.truncate 2 0xFFFFFFFFFFFFFFFF).run sampleTmpfs = .error .panic sampleTmpfs :=
  ⟨sampleTmpfs_reachable, by decide, rfl⟩

end RacOS.Vfs.Tmpfs
