import RacOS.Terminal.Scrollback

/-!
# What the operations write

The cells of the active grid after an operation.  Everything that the terminal does to them fills
ranges of cells: with one character, with blanks, or with cells from further on.
-/

namespace RacOS.RacTerm

open Total

namespace ScreenBuffer

variable {b b' b'' : ScreenBuffer} {lo mid hi : ℕ} {src src' : ℕ → Option Cell}

/-- The cells from `lo` up to `hi` are those that `src` gives, and all others are as before. -/
structure Fills (lo hi : ℕ) (src : ℕ → Option Cell) (b b' : ScreenBuffer) : Prop where
  keeps : b.Keeps b'
  cell : ∀ j, b'.grid[j]? = if lo ≤ j ∧ j < hi then src j else b.grid[j]?

/-- The source of blanks. -/
def blanks : ℕ → Option Cell := fun _ => some {}

namespace Fills

theorem of_grid (h : b.Keeps b') (hgrid : b'.grid = b.grid) (hle : hi ≤ lo) :
    Fills lo hi src b b' := by
  refine ⟨h, fun j => ?_⟩
  rw [if_neg (by omega), hgrid]

theorem trans (h : Fills lo mid src b b') (h' : Fills mid hi src' b' b'') (hlo : lo ≤ mid)
    (hhi : mid ≤ hi) (hsrc : ∀ j, mid ≤ j → j < hi → src' j = src j) : Fills lo hi src b b'' := by
  refine ⟨h.keeps.trans h'.keeps, fun j => ?_⟩
  rw [h'.cell, h.cell]
  by_cases hmid : j < mid
  · rw [if_neg (by omega)]
    by_cases hj : lo ≤ j
    · rw [if_pos ⟨hj, hmid⟩, if_pos ⟨hj, by omega⟩]
    · rw [if_neg (by omega), if_neg (by omega)]
  · by_cases hj : j < hi
    · rw [if_pos (by omega), if_pos (by omega), hsrc j (by omega) hj]
    · rw [if_neg (by omega), if_neg (by omega), if_neg (by omega)]

variable (b)

theorem write {i : ℕ} {cell : Cell} (hcell : src i = some cell) :
    Ensures (b.write i cell) (Fills i (i + 1) src b) := by
  intro b' hb'
  have hkeeps := Keeps.write b i cell b' hb'
  obtain ⟨grid, hgrid, hb'⟩ := Option.bind_eq_some_iff.mp hb'
  obtain rfl := Option.some.inj hb'
  refine ⟨hkeeps, fun j => ?_⟩
  unfold setAt at hgrid
  split at hgrid
  · rename_i hlt
    rw [grid_withGrid, ← Option.some.inj hgrid, List.getElem?_set]
    by_cases hj : i = j
    · subst hj
      rw [if_pos rfl, if_pos hlt, if_pos ⟨Nat.le_refl i, Nat.lt_succ_self i⟩, hcell]
    · rw [if_neg hj, if_neg (by omega)]
  · cases hgrid

theorem markDirty (row : ℕ) (src : ℕ → Option Cell) :
    Ensures (b.markDirty row) (Fills 0 0 src b) := by
  intro b' hb'
  have hkeeps := Keeps.markDirty b row b' hb'
  obtain ⟨dirty, -, hb'⟩ := Option.bind_eq_some_iff.mp hb'
  obtain rfl := Option.some.inj hb'
  exact of_grid hkeeps rfl (Nat.le_refl 0)

/-- Marking does not change what has been filled. -/
theorem then_markDirty {x : Option ScreenBuffer} (h : Ensures x (Fills lo hi src b)) (row : ℕ) :
    Ensures (x >>= fun b => b.markDirty row) (Fills lo hi src b) := by
  refine h.bind fun b' hb' => (markDirty b' row src).mono fun b'' hb'' => ?_
  refine ⟨hb'.keeps.trans hb''.keeps, fun j => ?_⟩
  rw [hb''.cell, if_neg (by omega), hb'.cell]

theorem putChar {row col : ℕ} (hrow : row < b.rows) (hcol : col < b.cols)
    (character : Char) (fg bg : Color) (attrs : CellAttrs) :
    Ensures (b.putChar row col character fg bg attrs)
      (Fills (row * b.cols + col) (row * b.cols + col + 1)
        (fun _ => some { character, fg, bg, attrs }) b) := by
  unfold ScreenBuffer.putChar
  rw [if_pos ⟨hrow, hcol⟩]
  exact then_markDirty b (write b rfl) row

theorem blankColumns (row : ℕ) (hle : lo ≤ hi) :
    Ensures (loop lo hi (fun b c => b.write (row * b.cols + c) {}) b)
      (Fills (row * b.cols + lo) (row * b.cols + hi) blanks b) := by
  refine .loop_index (I := fun c => Fills (row * b.cols + lo) (row * b.cols + c) blanks b)
    (fun c hlo _ b' hb' => ?_) hle (of_grid (.refl b) rfl (Nat.le_refl _))
  rw [hb'.keeps.cols]
  have hwrite : Ensures (b'.write (row * b.cols + c) {})
      (Fills (row * b.cols + c) (row * b.cols + c + 1) blanks b') := write b' rfl
  exact hwrite.mono fun b'' hb'' =>
    hb'.trans hb'' (by omega) (by omega) fun _ _ _ => rfl

theorem blankRow (row : ℕ) :
    Ensures (b.blankRow row) (Fills (row * b.cols) ((row + 1) * b.cols) blanks b) := by
  rw [Nat.succ_mul]
  exact blankColumns b row (Nat.zero_le b.cols)

theorem blankRows (hle : lo ≤ hi) :
    Ensures (loop lo hi ScreenBuffer.blankRow b)
      (Fills (lo * b.cols) (hi * b.cols) blanks b) := by
  refine .loop_index (I := fun r => Fills (lo * b.cols) (r * b.cols) blanks b)
    (fun r hlo _ b' hb' => (blankRow b' r).mono fun b'' hb'' => ?_) hle
    (of_grid (.refl b) rfl (Nat.le_refl _))
  rw [hb'.keeps.cols] at hb''
  exact hb'.trans hb'' (Nat.mul_le_mul_right _ hlo) (Nat.mul_le_mul_right _ (Nat.le_succ r))
    fun _ _ _ => rfl

theorem copyRow (row n : ℕ) :
    Ensures (b.copyRow row (row + n)) (Fills (row * b.cols) ((row + 1) * b.cols)
      (fun j => b.grid[j + n * b.cols]?) b) := by
  rw [Nat.succ_mul]
  refine .loop_index (I := fun c => Fills (row * b.cols) (row * b.cols + c)
    (fun j => b.grid[j + n * b.cols]?) b) (fun c hlo _ b' hb' => ?_) (Nat.zero_le _)
    (of_grid (.refl b) rfl (Nat.le_refl _))
  have hindex : (row + n) * b'.cols + c = row * b.cols + c + n * b.cols := by
    rw [hb'.keeps.cols, Nat.add_mul]
    omega
  intro b'' hb''
  obtain ⟨cell, hcell, hwrite⟩ := Option.bind_eq_some_iff.mp hb''
  -- the cell that is copied has not been written yet
  rw [hindex, hb'.cell, if_neg (by omega)] at hcell
  rw [hb'.keeps.cols] at hwrite
  have hfills : Ensures (b'.write (row * b.cols + c) cell) (Fills (row * b.cols + c)
      (row * b.cols + c + 1) (fun j => b.grid[j + n * b.cols]?) b') := write b' hcell
  exact hb'.trans (hfills b'' hwrite) (by omega) (by omega) fun _ _ _ => rfl

theorem copyRows (n : ℕ) (hle : lo ≤ hi) :
    Ensures (loop lo hi (fun b r => b.copyRow r (r + n)) b)
      (Fills (lo * b.cols) (hi * b.cols) (fun j => b.grid[j + n * b.cols]?) b) := by
  refine .loop_index (I := fun r => Fills (lo * b.cols) (r * b.cols)
    (fun j => b.grid[j + n * b.cols]?) b) (fun r hlo _ b' hb' => ?_) hle
    (of_grid (.refl b) rfl (Nat.le_refl _))
  refine (copyRow b' r n).mono fun b'' hb'' => ?_
  rw [hb'.keeps.cols] at hb''
  refine hb'.trans hb'' (Nat.mul_le_mul_right _ hlo) (Nat.mul_le_mul_right _ (Nat.le_succ r))
    fun j hj _ => ?_
  rw [hb'.cell, if_neg (by omega)]

end Fills

theorem putChar_set (h : b.Shaped) {row col : ℕ} (hrow : row < b.rows) (hcol : col < b.cols)
    (character : Char) (fg bg : Color) (attrs : CellAttrs) :
    Ensures (b.putChar row col character fg bg attrs) fun b' => b.Keeps b' ∧
      b'.grid = b.grid.set (row * b.cols + col) { character, fg, bg, attrs } := by
  have hlt : row * b.cols + col < b.grid.length := by
    rw [length_grid h]
    exact index_lt hrow hcol
  refine (Fills.putChar b hrow hcol character fg bg attrs).mono fun b' hb' => ⟨hb'.keeps, ?_⟩
  apply List.ext_getElem?
  intro j
  rw [hb'.cell, List.getElem?_set]
  by_cases hj : row * b.cols + col = j
  · rw [if_pos (by omega), if_pos hj, if_pos hlt]
  · rw [if_neg (by omega), if_neg hj]

/-- A scroll of the whole screen by a line: the first row leaves, and the last one is blank. -/
theorem scrollUp_whole (h : b.Shaped) (hrows : 0 < b.rows) :
    Ensures (b.scrollUp 1 0 b.rows) fun b' =>
      (b.log [b.primaryRow 0]).Keeps b' ∧
        b'.grid = b.grid.drop b.cols ++ List.replicate b.cols ({} : Cell) := by
  have hsplit : b.rows * b.cols = (b.rows - 1) * b.cols + b.cols := by
    rw [← Nat.succ_mul, Nat.succ_eq_add_one, Nat.sub_add_cancel hrows]
  have hlength := length_grid h
  unfold scrollUp
  rw [checkedSub_eq hrows]
  change Ensures (if min b.rows b.rows ≤ min 0 (b.rows - 1) then some b else _) _
  rw [Nat.min_self, Nat.zero_min, if_neg (Nat.not_le.mpr hrows), Nat.sub_zero,
    Nat.min_eq_left hrows]
  refine (saveScrolled_log b 1 0).bind ?_
  rintro b₁ rfl
  refine (Fills.copyRows _ 1 (Nat.zero_le _)).bind fun b₂ h₂ => ?_
  refine (Fills.blankRows b₂ (Nat.sub_le _ 1)).bind fun b₃ h₃ => ?_
  refine (Ensures.loop_index (I := fun _ => Fills 0 0 blanks b₃) (fun r _ _ b' hb' => ?_)
    (Nat.zero_le _) (Fills.of_grid (.refl b₃) rfl (Nat.le_refl 0))).mono fun b' hb' => ⟨?_, ?_⟩
  · exact (Fills.markDirty b' r blanks).mono fun b'' hb'' =>
      hb'.trans hb'' (Nat.le_refl 0) (Nat.le_refl 0) fun _ _ _ => rfl
  · exact h₂.keeps.trans (h₃.keeps.trans hb'.keeps)
  · have hcols : b₂.cols = b.cols := h₂.keeps.cols
    apply List.ext_getElem?
    intro j
    rw [hb'.cell, if_neg (by omega), h₃.cell, h₂.cell, hcols]
    change (if (b.rows - 1) * b.cols ≤ j ∧ j < b.rows * b.cols then some {}
      else if 0 * b.cols ≤ j ∧ j < (b.rows - 1) * b.cols then b.grid[j + 1 * b.cols]?
      else b.grid[j]?) = _
    rw [Nat.zero_mul, Nat.one_mul]
    by_cases hj : j < (b.rows - 1) * b.cols
    · rw [if_neg (by omega), if_pos ⟨Nat.zero_le j, hj⟩,
        List.getElem?_append_left (by rw [List.length_drop]; omega), List.getElem?_drop,
        Nat.add_comm]
    · rw [List.getElem?_append_right (by rw [List.length_drop]; omega), List.length_drop,
        List.getElem?_replicate]
      by_cases hin : j < b.rows * b.cols
      · rw [if_pos (by omega), if_pos (by omega)]
      · rw [if_neg (by omega), if_neg (by omega), if_neg (by omega),
          List.getElem?_eq_none (by omega)]

end ScreenBuffer

end RacOS.RacTerm
