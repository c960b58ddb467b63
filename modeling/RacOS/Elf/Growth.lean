import RacOS.Elf.Loader

/-!
# What the loader keeps

The loader is built from a few steps on the machine.  None of them gives a frame back or
forgets what was touched, so that neither does the whole of it, however it ends.
-/

namespace RacOS.Elf

open Program

/-- The steps of the loader that leave the frames alone. -/
inductive Quiet : (α : Type) → LoadM α → Prop
  | touch (a : Access) : Quiet Unit (touch a)
  | store (f : Bytes → Bytes) :
      Quiet PUnit (modify fun m : Machine => { m with memory := f m.memory })
  | fetch (addr count : ℕ) : Quiet (List ℕ) (fetchWords addr count)

/-- The steps of the loader on the machine. -/
inductive Primitive : (α : Type) → LoadM α → Prop
  | quiet {α : Type} {x : LoadM α} (h : Quiet α x) : Primitive α x
  | alloc (owner : Owner) (count : ℕ) : Primitive ℕ (allocContiguous owner count)

/-- The programs that are built from steps which leave the frames alone. -/
abbrev Still {α : Type} (x : LoadM α) : Prop := Generated (fun _ => True) Quiet α x

/-- The programs that are built from the steps. -/
abbrev Built {α : Type} (x : LoadM α) : Prop := Generated (fun _ => True) Primitive α x

variable {α : Type} {x : LoadM α} (image : Image) (segments : List Mm.Segment)

theorem Still.built (h : Still x) : Built x :=
  h.mono (fun _ _ => trivial) fun _ _ => .quiet

namespace Still

theorem fill (addr len : ℕ) (src : Bytes) : Still (fill addr len src) :=
  .bind (.prim (.touch _)) fun _ => .prim (.store fun b => b.patch addr len src)

theorem fillSegment (ph : Phdr) (x : Extent) (first : ℕ) :
    Still (fillSegment image ph x first) := by
  refine .bind (fill _ _ _) fun _ => ?_
  split
  · exact .bind (.prim (.touch _)) fun _ => fill _ _ _
  · exact .pure _

theorem readPhdr (off : ℕ) : Still (readPhdr image off) :=
  .bind (.require _ _) fun _ => .bind (.prim (.touch _)) fun _ => .pure _

theorem scanDynamic (ptr loadBias left i : ℕ) (info : DynInfo) :
    Still (scanDynamic ptr loadBias left i info) := by
  induction left generalizing i info with
  | zero => exact .pure _
  | succ left ih =>
    refine .bind (.prim (.fetch _ _)) fun ent => ?_
    dsimp only
    split_ifs
    · exact .pure _
    · exact .bind (.ofExcept _) fun relaVaddr => ih _ _
    all_goals exact ih _ _

theorem applyRela (loadBias : ℕ) (rela : List ℕ) : Still (applyRela segments loadBias rela) := by
  unfold Elf.applyRela
  split
  · refine .bind (.ofExcept _) fun placeVaddr => .bind (.ofExcept _) fun place => ?_
    exact .bind (.prim (.touch _)) fun _ => .prim (.store fun b => b.writeLe 8 place _)
  · exact .pure _

theorem applyRelas (loadBias ptr entSize left i : ℕ) :
    Still (applyRelas segments loadBias ptr entSize left i) := by
  induction left generalizing i with
  | zero => exact .pure _
  | succ left ih =>
    refine .bind (.prim (.fetch _ _)) fun rela => ?_
    exact .bind (applyRela _ _ _) fun _ => ih (i + 1)

theorem applyTable (loadBias : ℕ) (info : DynInfo) : Still (applyTable segments loadBias info) := by
  unfold Elf.applyTable
  split
  · exact .pure _
  split
  · exact .pure _
  · exact .bind (.require _ _) fun _ => .bind (.ofExcept _) fun ptr => applyRelas _ _ _ _ _ _

theorem relocate (h : Header) (p : Progress) : Still (relocate h p) := by
  unfold Elf.relocate applyRelocations
  split
  · split
    · exact .pure _
    split
    · exact .pure _
    · refine .bind (.ofExcept _) fun ptr => ?_
      exact .bind (scanDynamic _ _ _ _ _) fun info => applyTable _ _ _
  · exact .pure _

end Still

namespace Built

theorem loadSegment (loadBias : ℕ) (ph : Phdr) : Built (loadSegment image loadBias ph) := by
  refine .bind (.ofExcept _) fun x => .bind (.prim (.alloc _ _)) fun first => ?_
  exact .bind (Still.fillSegment _ _ _ _).built fun _ => .pure _

theorem loadHeader (loadBias : ℕ) (ph : Phdr) (p : Progress) :
    Built (loadHeader image loadBias ph p) := by
  refine .bind (.ofExcept _) fun p' => ?_
  split
  · exact .pure _
  · refine .bind (.require _ _) fun _ => ?_
    exact .bind (loadSegment _ _ _) fun seg => .pure _

theorem loadHeaders (h : Header) (left i : ℕ) (p : Progress) :
    Built (loadHeaders image h left i p) := by
  induction left generalizing i p with
  | zero => exact .pure _
  | succ left ih =>
    refine .bind (Still.readPhdr _ _).built fun ph => ?_
    exact .bind (loadHeader _ _ _ _) fun p' => ih (i + 1) p'

theorem allocStack : Built allocStack :=
  .bind (.prim (.alloc _ _)) fun _ => .bind (Still.fill _ _ _).built fun _ => .pure _

end Built

/-- No frame was given back, and nothing that was touched was forgotten. -/
structure Machine.Grows (m m' : Machine) : Prop where
  free : m'.free ⊆ m.free
  accesses : m.accesses ⊆ m'.accesses

namespace Machine.Grows

theorem refl (m : Machine) : m.Grows m := ⟨List.Subset.refl _, List.Subset.refl _⟩

theorem trans {m₁ m₂ m₃ : Machine} (h₁ : m₁.Grows m₂) (h₂ : m₂.Grows m₃) : m₁.Grows m₃ :=
  ⟨List.Subset.trans h₂.free h₁.free, List.Subset.trans h₁.accesses h₂.accesses⟩

end Machine.Grows

theorem Quiet.grows (h : Quiet α x) (m : Machine) :
    (final x m).free = m.free ∧ m.Grows (final x m) := by
  cases h with
  | touch a => exact ⟨rfl, List.Subset.refl _, List.subset_cons_self _ _⟩
  | store f => exact ⟨rfl, List.Subset.refl _, List.Subset.refl _⟩
  | fetch addr count => exact ⟨rfl, List.Subset.refl _, List.subset_cons_self _ _⟩

theorem Still.free_eq (h : Still x) (m : Machine) :
    (final x m).free = m.free := by
  have hkeep : ∀ s, True → True ∧ (final x s).free = s.free := by
    refine h.final_rel (R := fun m m' => m'.free = m.free) (fun _ => rfl) ?_
      fun _ _ hx m _ => ⟨trivial, (hx.grows m).1⟩
    intro m₁ m₂ m₃ h₁ h₂
    exact h₂.trans h₁
  exact (hkeep m trivial).2

theorem Primitive.grows (h : Primitive α x) (m : Machine) :
    m.Grows (final x m) := by
  cases h with
  | quiet h => exact (h.grows m).2
  | alloc owner count =>
    cases hrun : freeRun m.free count with
    | none =>
      rw [final_of_error (allocContiguous_of_none hrun)]
      exact .refl m
    | some first =>
      rw [final_of_ok (allocContiguous_of_some hrun)]
      exact ⟨List.filter_subset_self _, List.Subset.refl _⟩

theorem Built.grows (h : Built x) (m : Machine) : m.Grows (final x m) :=
  (h.final_rel .refl .trans (fun _ _ hx m _ => ⟨trivial, hx.grows m⟩) m trivial).2

/-- What follows the first part of a program forgets nothing of it. -/
theorem Built.bind_grows {β : Type} {f : α → LoadM β}
    (hf : ∀ a, Built (f a)) (m : Machine) : (final x m).Grows (final (x >>= f) m) := by
  rw [final_bind]
  cases hx : x m with
  | ok a m' =>
    rw [final_of_ok hx]
    exact (hf a).grows m'
  | error e m' =>
    rw [final_of_error hx]
    exact .refl m'

end RacOS.Elf
