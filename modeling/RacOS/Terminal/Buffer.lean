import RacOS.Lib.Total

/-!
# The screen buffer

The model of `terminal/src/buffer.rs`: two grids of cells in row order, of which one is active, a
scrollback, and a flag for every row that says whether it has to be painted again.  An operation
fails where the source would index out of range or subtract below zero.

The operations keep the sizes, they never fail on a buffer of the right shape, and a row whose
flag is not set after an operation has the cells it had before.
-/

namespace RacOS.RacTerm

open Total

/-! ## The model -/

inductive Color
  | default
  | indexed (i : UInt8)
  | rgb (r g b : UInt8)
  deriving DecidableEq

structure CellAttrs where
  bold : Bool := false
  italic : Bool := false
  underline : Bool := false
  blink : Bool := false
  reverse : Bool := false
  strikethrough : Bool := false
  deriving DecidableEq

/-- A character cell; by default it is blank. -/
structure Cell where
  character : Char := ' '
  fg : Color := .default
  bg : Color := .default
  attrs : CellAttrs := {}
  deriving DecidableEq

structure ScreenBuffer where
  rows : ℕ
  cols : ℕ
  primary : List Cell
  alternate : List Cell
  usingAlternate : Bool
  scrollback : List (List Cell)
  scrollbackLimit : ℕ
  dirty : List Bool

namespace ScreenBuffer

protected def new (rows cols : ℕ) : ScreenBuffer where
  rows := rows
  cols := cols
  primary := List.replicate (rows * cols) {}
  alternate := List.replicate (rows * cols) {}
  usingAlternate := false
  scrollback := []
  scrollbackLimit := 10000
  dirty := List.replicate rows true

/-- The active grid. -/
def grid (b : ScreenBuffer) : List Cell := if b.usingAlternate then b.alternate else b.primary

def withGrid (b : ScreenBuffer) (grid : List Cell) : ScreenBuffer :=
  if b.usingAlternate then { b with alternate := grid } else { b with primary := grid }

/-- The cell at a row and a column. -/
def get (b : ScreenBuffer) (row col : ℕ) : Option Cell := b.grid[row * b.cols + col]?

/-- Write the cell at an index of the active grid. -/
def write (b : ScreenBuffer) (i : ℕ) (cell : Cell) : Option ScreenBuffer := do
  let grid ← setAt b.grid i cell
  some (b.withGrid grid)

/-- Copy a cell within the active grid. -/
def copy (b : ScreenBuffer) (dst src : ℕ) : Option ScreenBuffer := do
  let cell ← b.grid[src]?
  b.write dst cell

def isDirty (b : ScreenBuffer) (row : ℕ) : Bool := b.dirty.getD row false

def markDirty (b : ScreenBuffer) (row : ℕ) : Option ScreenBuffer := do
  let dirty ← setAt b.dirty row true
  some { b with dirty }

def markAllDirty (b : ScreenBuffer) : ScreenBuffer := { b with dirty := b.dirty.map fun _ => true }

protected def set (b : ScreenBuffer) (row col : ℕ) (cell : Cell) : Option ScreenBuffer := do
  let b ← b.write (row * b.cols + col) cell
  b.markDirty row

def putChar (b : ScreenBuffer) (row col : ℕ) (character : Char) (fg bg : Color)
    (attrs : CellAttrs) : Option ScreenBuffer :=
  if row < b.rows ∧ col < b.cols then b.set row col { character, fg, bg, attrs } else some b

/-- Blank the cells of the active grid. -/
def blankGrid (b : ScreenBuffer) : Option ScreenBuffer :=
  loop 0 (b.rows * b.cols) (fun b i => b.write i {}) b

/-- Blank the cells of a row. -/
def blankRow (b : ScreenBuffer) (row : ℕ) : Option ScreenBuffer :=
  loop 0 b.cols (fun b c => b.write (row * b.cols + c) {}) b

def clear (b : ScreenBuffer) : Option ScreenBuffer := do
  let b ← b.blankGrid
  some b.markAllDirty

/-- Blank a row and mark it. -/
def clearRow (b : ScreenBuffer) (row : ℕ) : Option ScreenBuffer := do
  let b ← b.blankRow row
  b.markDirty row

def clearBelow (b : ScreenBuffer) (row col : ℕ) : Option ScreenBuffer := do
  let b ← loop col b.cols (fun b c => b.set row c {}) b
  loop (row + 1) b.rows clearRow b

def clearAbove (b : ScreenBuffer) (row col : ℕ) : Option ScreenBuffer := do
  let b ← loop 0 row clearRow b
  let last ← checkedSub b.cols 1
  loop 0 (min col last + 1) (fun b c => b.set row c {}) b

/-- Blank the columns from `lo` up to `hi` of a row. -/
def clearLine (b : ScreenBuffer) (row lo hi : ℕ) : Option ScreenBuffer :=
  if row < b.rows then do
    let b ← loop lo (min hi b.cols) (fun b c => b.write (row * b.cols + c) {}) b
    b.markDirty row
  else some b

def setScrollbackLimit (b : ScreenBuffer) (limit : ℕ) : ScreenBuffer :=
  { b with scrollbackLimit := limit, scrollback := if limit = 0 then [] else b.scrollback }

/-- Put a row of the primary grid into the scrollback. -/
def saveRow (b : ScreenBuffer) (i : ℕ) : Option ScreenBuffer :=
  if (i + 1) * b.cols ≤ b.primary.length then
    let scrollback := b.scrollback ++ [(b.primary.drop (i * b.cols)).take b.cols]
    some { b with
      scrollback := if b.scrollbackLimit < scrollback.length then scrollback.tail
        else scrollback }
  else none

/-- Save the rows that scroll out of the whole screen. -/
def saveScrolled (b : ScreenBuffer) (n top : ℕ) : Option ScreenBuffer :=
  if b.usingAlternate = false ∧ top = 0 ∧ 0 < b.scrollbackLimit then loop 0 n saveRow b
  else some b

/-- Copy a row within the active grid. -/
def copyRow (b : ScreenBuffer) (dst src : ℕ) : Option ScreenBuffer :=
  loop 0 b.cols (fun b c => b.copy (dst * b.cols + c) (src * b.cols + c)) b

def scrollUp (b : ScreenBuffer) (n top bottom : ℕ) : Option ScreenBuffer := do
  let last ← checkedSub b.rows 1
  let top := min top last
  let bottom := min bottom b.rows
  if bottom ≤ top then some b
  else do
    let n := min n (bottom - top)
    let b ← b.saveScrolled n top
    let b ← loop top (bottom - n) (fun b r => b.copyRow r (r + n)) b
    let b ← loop (bottom - n) bottom blankRow b
    loop top bottom markDirty b

def scrollDown (b : ScreenBuffer) (n top bottom : ℕ) : Option ScreenBuffer := do
  let last ← checkedSub b.rows 1
  let top := min top last
  let bottom := min bottom b.rows
  if bottom ≤ top then some b
  else do
    let n := min n (bottom - top)
    let b ← loopDown (top + n) bottom (fun b r => b.copyRow r (r - n)) b
    let b ← loop top (top + n) blankRow b
    loop top bottom markDirty b

def insertLines (b : ScreenBuffer) (row n bottom : ℕ) : Option ScreenBuffer :=
  if row < bottom then b.scrollDown n row bottom else some b

def deleteLines (b : ScreenBuffer) (row n bottom : ℕ) : Option ScreenBuffer :=
  if row < bottom then b.scrollUp n row bottom else some b

def insertChars (b : ScreenBuffer) (row col n : ℕ) : Option ScreenBuffer :=
  if b.rows ≤ row ∨ b.cols ≤ col then some b
  else do
    let b ← loopDown (col + n) b.cols
      (fun b c => b.copy (row * b.cols + c) (row * b.cols + c - n)) b
    let b ← loop col (min (col + n) b.cols) (fun b c => b.write (row * b.cols + c) {}) b
    b.markDirty row

def deleteChars (b : ScreenBuffer) (row col n : ℕ) : Option ScreenBuffer :=
  if b.rows ≤ row ∨ b.cols ≤ col then some b
  else do
    let b ← loop col b.cols (fun b c =>
      if c + n < b.cols then b.copy (row * b.cols + c) (row * b.cols + c + n)
      else b.write (row * b.cols + c) {}) b
    b.markDirty row

def eraseChars (b : ScreenBuffer) (row col n : ℕ) : Option ScreenBuffer :=
  if b.rows ≤ row then some b
  else do
    let b ← loop col (min (col + n) b.cols) (fun b c => b.write (row * b.cols + c) {}) b
    b.markDirty row

def enableAlternate (b : ScreenBuffer) : Option ScreenBuffer :=
  if b.usingAlternate then some b
  else do
    let b ← { b with usingAlternate := true }.blankGrid
    some b.markAllDirty

def disableAlternate (b : ScreenBuffer) : ScreenBuffer :=
  if b.usingAlternate then { b with usingAlternate := false }.markAllDirty else b

/-- Copy the cell at a row and a column of both grids into two grids with other columns. -/
def copyCell (b : ScreenBuffer) (newCols r : ℕ) (grids : List Cell × List Cell) (c : ℕ) :
    Option (List Cell × List Cell) := do
  let cell ← b.primary[r * b.cols + c]?
  let primary ← setAt grids.1 (r * newCols + c) cell
  let cell ← b.alternate[r * b.cols + c]?
  let alternate ← setAt grids.2 (r * newCols + c) cell
  some (primary, alternate)

def resize (b : ScreenBuffer) (newRows newCols : ℕ) : Option ScreenBuffer := do
  let blank := List.replicate (newRows * newCols) {}
  let (primary, alternate) ← loop 0 (min b.rows newRows) (fun grids r =>
    loop 0 (min b.cols newCols) (b.copyCell newCols r) grids) (blank, blank)
  some { b with
    primary, alternate, rows := newRows, cols := newCols, dirty := List.replicate newRows true }

/-! ## What the operations keep -/

/-- The grids and the flags have the sizes that the dimensions give them. -/
structure Shaped (b : ScreenBuffer) : Prop where
  primary : b.primary.length = b.rows * b.cols
  alternate : b.alternate.length = b.rows * b.cols
  dirty : b.dirty.length = b.rows

/-- `b'` has the shape of `b`, no flag that was set is cleared, and only rows in `S` have other
cells. -/
structure Touches (S : ℕ → Prop) (b b' : ScreenBuffer) : Prop where
  rows : b'.rows = b.rows
  cols : b'.cols = b.cols
  shaped : b.Shaped → b'.Shaped
  dirty : ∀ r, b.isDirty r = true → b'.isDirty r = true
  cell : ∀ r c, c < b.cols → ¬ S r → b'.get r c = b.get r c

/-- Only rows that are marked have other cells. -/
def Painted (b b' : ScreenBuffer) : Prop := Touches (fun r => b'.isDirty r = true) b b'

variable {S T : ℕ → Prop} {b b' b'' : ScreenBuffer}

namespace Touches

theorem refl (S : ℕ → Prop) (b : ScreenBuffer) : Touches S b b :=
  ⟨rfl, rfl, id, fun _ => id, fun _ _ _ _ => rfl⟩

theorem trans (h : Touches S b b') (h' : Touches S b' b'') : Touches S b b'' where
  rows := h'.rows.trans h.rows
  cols := h'.cols.trans h.cols
  shaped := h'.shaped ∘ h.shaped
  dirty := fun r hr => h'.dirty r (h.dirty r hr)
  cell := fun r c hc hr => (h'.cell r c (h.cols ▸ hc) hr).trans (h.cell r c hc hr)

theorem mono (h : Touches S b b') (hST : ∀ r, S r → T r) : Touches T b b' :=
  { h with cell := fun r c hc hr => h.cell r c hc fun hs => hr (hST r hs) }

instance (S : ℕ → Prop) : Std.Refl (Touches S) := ⟨refl S⟩

instance (S : ℕ → Prop) : IsTrans ScreenBuffer (Touches S) := ⟨fun _ _ _ => trans⟩

end Touches

namespace Painted

theorem refl (b : ScreenBuffer) : Painted b b := Touches.refl _ b

theorem trans (h : Painted b b') (h' : Painted b' b'') : Painted b b'' :=
  (h.mono h'.dirty).trans h'

instance : Std.Refl Painted := ⟨refl⟩

instance : IsTrans ScreenBuffer Painted := ⟨fun _ _ _ => trans⟩

/-- Cells are written first, and then their rows are marked. -/
theorem of_touches (h : Touches S b b') (h' : Touches (fun _ => False) b' b'')
    (hmark : ∀ r, S r → b''.isDirty r = true) : Painted b b'' :=
  (h.mono hmark).trans (h'.mono fun _ => False.elim)

end Painted

/-! ## Single cells and flags -/

theorem grid_withGrid (grid : List Cell) : (b.withGrid grid).grid = grid := by
  unfold withGrid ScreenBuffer.grid
  split <;> simp_all

/-- A row and a column within the screen have an index within the grid. -/
theorem index_lt {rows cols r c : ℕ} (hr : r < rows) (hc : c < cols) :
    r * cols + c < rows * cols := by
  calc r * cols + c < r * cols + cols := by omega
    _ = (r + 1) * cols := (Nat.succ_mul r cols).symm
    _ ≤ rows * cols := Nat.mul_le_mul_right cols hr

/-- Cells of different rows have different indices. -/
theorem row_eq_of_index {cols r r' c c' : ℕ} (hc : c < cols) (hc' : c' < cols)
    (h : r * cols + c = r' * cols + c') : r = r' := by
  have hdiv := congrArg (· / cols) h
  simp only [Nat.mul_comm _ cols] at hdiv
  rwa [Nat.mul_add_div (by omega), Nat.mul_add_div (by omega), Nat.div_eq_of_lt hc,
    Nat.div_eq_of_lt hc'] at hdiv

theorem markAllDirty_touches (b : ScreenBuffer) : Touches (fun _ => False) b b.markAllDirty where
  rows := rfl
  cols := rfl
  shaped := fun h => ⟨h.primary, h.alternate, by simpa [markAllDirty] using h.dirty⟩
  dirty := fun r hr => by
    unfold isDirty at hr
    rw [List.getD_eq_getElem?_getD] at hr
    unfold isDirty markAllDirty
    rw [List.getD_eq_getElem?_getD, List.getElem?_map]
    cases hget : b.dirty[r]? with
    | none => simp [hget] at hr
    | some d => rfl
  cell := fun _ _ _ _ => rfl

/-- An operation after which every row is marked. -/
def Repaints (b b' : ScreenBuffer) : Prop :=
  Painted b b' ∧ ∀ r < b'.rows, b'.isDirty r = true

variable (h : b.Shaped)

include h

theorem length_grid : b.grid.length = b.rows * b.cols := by
  unfold grid
  split
  · exact h.alternate
  · exact h.primary

theorem write_touches {r c : ℕ} (hr : r < b.rows) (hc : c < b.cols) (hS : S r) (cell : Cell) :
    Yields (b.write (r * b.cols + c) cell) (Touches S b) := by
  have hlt : r * b.cols + c < b.grid.length := by
    rw [length_grid h]
    exact index_lt hr hc
  refine ⟨b.withGrid (b.grid.set (r * b.cols + c) cell), ?_, ?_, ?_, fun _ => ?_, fun r' => ?_,
    fun r' c' hc' hS' => ?_⟩
  · unfold write
    rw [setAt_eq hlt]
    rfl
  · unfold withGrid
    split <;> rfl
  · unfold withGrid
    split <;> rfl
  · unfold withGrid grid
    split
    · exact ⟨h.primary, by simpa using h.alternate, h.dirty⟩
    · exact ⟨by simpa using h.primary, h.alternate, h.dirty⟩
  · unfold withGrid
    split <;> exact id
  · have hcols : (b.withGrid (b.grid.set (r * b.cols + c) cell)).cols = b.cols := by
      unfold withGrid
      split <;> rfl
    unfold get
    rw [grid_withGrid, hcols, List.getElem?_set_ne]
    intro heq
    exact hS' (row_eq_of_index hc hc' heq ▸ hS)

theorem copy_touches {r c src : ℕ} (hr : r < b.rows) (hc : c < b.cols) (hS : S r)
    (hsrc : src < b.rows * b.cols) : Yields (b.copy (r * b.cols + c) src) (Touches S b) := by
  have hlt : src < b.grid.length := by rwa [length_grid h]
  unfold copy
  rw [List.getElem?_eq_getElem hlt]
  exact write_touches h hr hc hS _

variable {row : ℕ}

/-- Marking a row changes no cell. -/
theorem markDirty_touches (hrow : row < b.rows) :
    Yields (b.markDirty row) fun b' =>
      Touches (fun _ => False) b b' ∧ b'.isDirty row = true := by
  have hlt : row < b.dirty.length := by rwa [h.dirty]
  unfold markDirty
  rw [setAt_eq hlt]
  refine .pure ⟨⟨rfl, rfl, fun _ => ?_, fun r hr => ?_, fun _ _ _ _ => rfl⟩, ?_⟩
  · exact ⟨h.primary, h.alternate, by simpa using h.dirty⟩
  · unfold isDirty at hr ⊢
    simp only [List.getD_eq_getElem?_getD, List.getElem?_set] at hr ⊢
    split
    · simp
    · exact hr
  · unfold isDirty
    simp [List.getD_eq_getElem?_getD, hlt]

theorem mark_painted {x : Option ScreenBuffer} (hrow : row < b.rows)
    (hx : Yields x (Touches (· = row) b)) :
    Yields (x >>= fun b => b.markDirty row) (Painted b) := by
  refine hx.bind fun b' hb' => ?_
  refine (markDirty_touches (hb'.shaped h) (hb'.rows ▸ hrow)).mono ?_
  rintro b'' ⟨htouch, hmark⟩
  refine .of_touches hb' htouch ?_
  rintro r rfl
  exact hmark

theorem loop_markDirty {top bottom : ℕ} (hle : top ≤ bottom) (hbottom : bottom ≤ b.rows) :
    Yields (loop top bottom markDirty b) fun b' =>
      Touches (fun _ => False) b b' ∧ ∀ r, top ≤ r → r < bottom → b'.isDirty r = true := by
  refine Yields.loop_index (I := fun i b' => Touches (fun _ => False) b b' ∧
    ∀ r, top ≤ r → r < i → b'.isDirty r = true) (fun i _ hi b' hb' => ?_) hle
    ⟨.refl _ b, fun r hr hlt => absurd hr (Nat.not_le.mpr hlt)⟩
  obtain ⟨htouch, hmarked⟩ := hb'
  refine (markDirty_touches (htouch.shaped h) (by rw [htouch.rows]; omega)).mono ?_
  rintro b'' ⟨htouch', hmark⟩
  refine ⟨htouch.trans htouch', fun r hr hlt => ?_⟩
  rcases Nat.lt_succ_iff_lt_or_eq.mp hlt with hlt | rfl
  · exact htouch'.dirty r (hmarked r hr hlt)
  · exact hmark

theorem isDirty_markAllDirty (hrow : row < b.rows) : b.markAllDirty.isDirty row = true := by
  unfold isDirty markAllDirty
  rw [List.getD_eq_getElem?_getD, List.getElem?_map, List.getElem?_eq_getElem (h.dirty.symm ▸ hrow)]
  rfl

/-! ## The operations -/

theorem blankRow_touches {r : ℕ} (hr : r < b.rows) (hS : S r) :
    Yields (b.blankRow r) (Touches S b) := by
  refine Yields.loop_rel fun c _ hc b' hb' => ?_
  exact write_touches (hb'.shaped h) (hb'.rows ▸ hr) (hb'.cols ▸ hc) hS {}

theorem copyRow_touches {dst src : ℕ} (hdst : dst < b.rows) (hsrc : src < b.rows) (hS : S dst) :
    Yields (b.copyRow dst src) (Touches S b) := by
  refine Yields.loop_rel fun c _ hc b' hb' => ?_
  have hc' : c < b'.cols := hb'.cols ▸ hc
  exact copy_touches (hb'.shaped h) (hb'.rows ▸ hdst) hc' hS
    (index_lt (hb'.rows ▸ hsrc) hc')

theorem writeColumns_touches (hrow : row < b.rows) (lo hi : ℕ) (hhi : hi ≤ b.cols) :
    Yields (loop lo hi (fun b c => b.write (row * b.cols + c) {}) b) (Touches (· = row) b) := by
  refine Yields.loop_rel fun c _ hc b' hb' => ?_
  exact write_touches (S := (· = row)) (hb'.shaped h) (hb'.rows ▸ hrow)
    (hb'.cols ▸ Nat.lt_of_lt_of_le hc hhi) rfl {}

theorem blankGrid_touches : Yields b.blankGrid (Touches (· < b.rows) b) := by
  refine Yields.loop_rel fun i _ hi b' hb' => ?_
  have hcols : 0 < b'.cols := by
    rw [hb'.cols]
    exact Nat.pos_of_ne_zero fun hzero => by simp [hzero] at hi
  have hrow : i / b'.cols < b'.rows := by
    rw [Nat.div_lt_iff_lt_mul hcols, hb'.rows, hb'.cols]
    exact hi
  have hindex : i / b'.cols * b'.cols + i % b'.cols = i := Nat.div_add_mod' i b'.cols
  have hwrite := write_touches (S := (· < b.rows)) (hb'.shaped h) hrow (Nat.mod_lt i hcols)
    (hb'.rows ▸ hrow) {}
  rwa [hindex] at hwrite

/-- Everything may have been written before all rows are marked. -/
theorem markAllDirty_repaints (htouch : Touches (· < b.rows) b b') :
    Repaints b b'.markAllDirty := by
  have hmark : ∀ r < b.rows, b'.markAllDirty.isDirty r = true := fun r hr =>
    isDirty_markAllDirty (htouch.shaped h) (htouch.rows ▸ hr)
  refine ⟨.of_touches htouch (markAllDirty_touches b') hmark, fun r hr => hmark r ?_⟩
  have hrows : b'.markAllDirty.rows = b.rows := htouch.rows
  exact hrows ▸ hr

theorem set_painted {row col : ℕ} (hrow : row < b.rows) (hcol : col < b.cols) (cell : Cell) :
    Yields (b.set row col cell) (Painted b) :=
  mark_painted h hrow (write_touches (S := (· = row)) h hrow hcol rfl cell)

theorem putChar_painted (row col : ℕ) (character : Char) (fg bg : Color) (attrs : CellAttrs) :
    Yields (b.putChar row col character fg bg attrs) (Painted b) :=
  .ite (fun hin => set_painted h hin.1 hin.2 _) fun _ => .pure (.refl b)

theorem clear_repaints : Yields b.clear (Repaints b) :=
  (blankGrid_touches h).bind fun _ hb' => .pure (markAllDirty_repaints h hb')

theorem clearRow_painted (hrow : row < b.rows) : Yields (b.clearRow row) (Painted b) :=
  mark_painted h hrow (blankRow_touches h hrow rfl)

theorem clearBelow_painted (hrow : row < b.rows) (col : ℕ) :
    Yields (b.clearBelow row col) (Painted b) := by
  refine Yields.seq (Yields.loop_rel fun c _ hc b' hb' => ?_) fun b' hb' =>
    Yields.loop_rel fun r _ hr b'' hb'' => ?_
  · exact set_painted (hb'.shaped h) (hb'.rows ▸ hrow) (hb'.cols ▸ hc) {}
  · exact clearRow_painted (hb''.shaped (hb'.shaped h)) (hb''.rows ▸ hr)

theorem clearAbove_painted (hrow : row < b.rows) (hcols : 0 < b.cols) (col : ℕ) :
    Yields (b.clearAbove row col) (Painted b) := by
  refine Yields.seq (Yields.loop_rel fun r _ hr b' hb' => ?_) fun b' hb' => ?_
  · exact clearRow_painted (hb'.shaped h) (hb'.rows ▸ Nat.lt_trans hr hrow)
  · rw [hb'.cols, checkedSub_eq hcols]
    refine Yields.loop_rel fun c _ hc b'' hb'' => ?_
    refine set_painted (hb''.shaped (hb'.shaped h)) ?_ ?_ {}
    · rwa [hb''.rows, hb'.rows]
    · rw [hb''.cols, hb'.cols]
      omega

theorem clearLine_painted (row lo hi : ℕ) : Yields (b.clearLine row lo hi) (Painted b) :=
  .ite (fun hrow => mark_painted h hrow
    (writeColumns_touches h hrow lo _ (Nat.min_le_right hi b.cols))) fun _ => .pure (.refl b)

theorem saveRow_touches {i : ℕ} (hi : i < b.rows) : Yields (b.saveRow i) (Touches S b) := by
  have hlen : (i + 1) * b.cols ≤ b.primary.length := by
    rw [h.primary]
    exact Nat.mul_le_mul_right b.cols hi
  unfold saveRow
  rw [if_pos hlen]
  exact .pure ⟨rfl, rfl, fun _ => ⟨h.primary, h.alternate, h.dirty⟩, fun _ => id,
    fun _ _ _ _ => rfl⟩

theorem saveScrolled_touches {n : ℕ} (hn : n ≤ b.rows) (top : ℕ) :
    Yields (b.saveScrolled n top) (Touches S b) := by
  refine .ite (fun _ => Yields.loop_rel fun i _ hi b' hb' => ?_) fun _ => .pure (.refl S b)
  exact saveRow_touches (hb'.shaped h) (hb'.rows ▸ Nat.lt_of_lt_of_le hi hn)

theorem markRegion_painted {x : Option ScreenBuffer} {top bottom : ℕ} (hle : top ≤ bottom)
    (hbottom : bottom ≤ b.rows) (hx : Yields x (Touches (fun r => top ≤ r ∧ r < bottom) b)) :
    Yields (x >>= loop top bottom markDirty) (Painted b) := by
  refine hx.bind fun b' hb' => ?_
  refine (loop_markDirty (hb'.shaped h) hle (hb'.rows ▸ hbottom)).mono ?_
  rintro b'' ⟨htouch, hmark⟩
  exact .of_touches hb' htouch fun r hr => hmark r hr.1 hr.2

/-- Scrolling cuts the region to the screen and the number of rows to the region. -/
theorem scroll_painted {x : ℕ → ℕ → ℕ → Option ScreenBuffer} (hrows : 0 < b.rows)
    (n top bottom : ℕ) (hx : ∀ n top bottom, n ≤ bottom - top → top ≤ bottom → bottom ≤ b.rows →
      Yields (x n top bottom) (Touches (fun r => top ≤ r ∧ r < bottom) b)) :
    Yields (do
      let last ← checkedSub b.rows 1
      let top := min top last
      let bottom := min bottom b.rows
      if bottom ≤ top then some b
      else x (min n (bottom - top)) top bottom >>= loop top bottom markDirty) (Painted b) := by
  rw [checkedSub_eq hrows]
  refine .ite (fun _ => .pure (.refl b)) fun hlt => ?_
  have hle := Nat.le_of_not_le hlt
  exact markRegion_painted h hle (Nat.min_le_right _ _)
    (hx _ _ _ (Nat.min_le_right _ _) hle (Nat.min_le_right _ _))

theorem scrollUp_painted (hrows : 0 < b.rows) (n top bottom : ℕ) :
    Yields (b.scrollUp n top bottom) (Painted b) := by
  have hscroll := scroll_painted (x := fun n top bottom => do
    let b ← b.saveScrolled n top
    let b ← loop top (bottom - n) (fun b r => b.copyRow r (r + n)) b
    loop (bottom - n) bottom blankRow b) h hrows n top bottom ?_
  · simp only [bind_assoc] at hscroll
    exact hscroll
  intro n top bottom hn hle hbottom
  refine Yields.seq (saveScrolled_touches h (by omega) top) fun b₁ h₁ => ?_
  have hs₁ := h₁.shaped h
  refine Yields.seq (Yields.loop_rel fun r hlo hhi b' hb' => ?_) fun b₂ h₂ =>
    Yields.loop_rel fun r hlo hhi b' hb' => ?_
  · have hrows' : b'.rows = b.rows := hb'.rows.trans h₁.rows
    exact copyRow_touches (hb'.shaped hs₁) (by omega) (by omega) ⟨hlo, by omega⟩
  · have hrows' : b'.rows = b.rows := hb'.rows.trans (h₂.rows.trans h₁.rows)
    exact blankRow_touches (hb'.shaped (h₂.shaped hs₁)) (by omega) ⟨by omega, hhi⟩

theorem scrollDown_painted (hrows : 0 < b.rows) (n top bottom : ℕ) :
    Yields (b.scrollDown n top bottom) (Painted b) := by
  have hscroll := scroll_painted (x := fun n top bottom => do
    let b ← loopDown (top + n) bottom (fun b r => b.copyRow r (r - n)) b
    loop top (top + n) blankRow b) h hrows n top bottom ?_
  · simp only [bind_assoc] at hscroll
    exact hscroll
  intro n top bottom hn hle hbottom
  refine Yields.seq (Yields.loopDown_rel fun r hlo hhi b' hb' => ?_) fun b₁ h₁ =>
    Yields.loop_rel fun r hlo hhi b' hb' => ?_
  · have hrows' : b'.rows = b.rows := hb'.rows
    exact copyRow_touches (hb'.shaped h) (by omega) (by omega) ⟨by omega, hhi⟩
  · have hrows' : b'.rows = b.rows := hb'.rows.trans h₁.rows
    exact blankRow_touches (hb'.shaped (h₁.shaped h)) (by omega) ⟨hlo, by omega⟩

theorem insertLines_painted (hrows : 0 < b.rows) (row n bottom : ℕ) :
    Yields (b.insertLines row n bottom) (Painted b) :=
  .ite (fun _ => scrollDown_painted h hrows n row bottom) fun _ => .pure (.refl b)

theorem deleteLines_painted (hrows : 0 < b.rows) (row n bottom : ℕ) :
    Yields (b.deleteLines row n bottom) (Painted b) :=
  .ite (fun _ => scrollUp_painted h hrows n row bottom) fun _ => .pure (.refl b)

theorem insertChars_painted (row col n : ℕ) : Yields (b.insertChars row col n) (Painted b) := by
  refine .ite (fun _ => .pure (.refl b)) fun hin => ?_
  obtain ⟨hrow, hcol⟩ : row < b.rows ∧ col < b.cols := by omega
  have hshift : Yields (loopDown (col + n) b.cols
      (fun b c => b.copy (row * b.cols + c) (row * b.cols + c - n)) b)
      (Touches (· = row) b) := by
    refine Yields.loopDown_rel fun c hlo hhi b' hb' => ?_
    have hc' : c < b'.cols := hb'.cols ▸ hhi
    have hsrc := index_lt (hb'.rows ▸ hrow) hc'
    exact copy_touches (hb'.shaped h) (hb'.rows ▸ hrow) hc' rfl (by omega)
  have hrest := mark_painted h hrow (hshift.seq fun b₁ h₁ => writeColumns_touches
    (h₁.shaped h) (h₁.rows ▸ hrow) col (min (col + n) b₁.cols) (Nat.min_le_right _ _))
  simpa only [bind_assoc] using hrest

theorem deleteChars_painted (row col n : ℕ) : Yields (b.deleteChars row col n) (Painted b) := by
  refine .ite (fun _ => .pure (.refl b)) fun hin => ?_
  obtain ⟨hrow, hcol⟩ : row < b.rows ∧ col < b.cols := by omega
  refine mark_painted h hrow (Yields.loop_rel fun c _ hc b' hb' => ?_)
  have hrow' : row < b'.rows := hb'.rows ▸ hrow
  have hc' : c < b'.cols := hb'.cols ▸ hc
  refine .ite (fun hlt => ?_) fun _ =>
    write_touches (S := (· = row)) (hb'.shaped h) hrow' hc' rfl {}
  have hsrc := index_lt hrow' hlt
  exact copy_touches (hb'.shaped h) hrow' hc' rfl (by omega)

theorem eraseChars_painted (row col n : ℕ) : Yields (b.eraseChars row col n) (Painted b) := by
  refine .ite (fun _ => .pure (.refl b)) fun hrow => ?_
  have hrow' : row < b.rows := Nat.not_le.mp hrow
  exact mark_painted h hrow'
    (writeColumns_touches h hrow' col _ (Nat.min_le_right (col + n) b.cols))

theorem switch_touches (alternate : Bool) :
    Touches (· < b.rows) b { b with usingAlternate := alternate } where
  rows := rfl
  cols := rfl
  shaped := fun h => ⟨h.primary, h.alternate, h.dirty⟩
  dirty := fun _ => id
  cell := fun r c hc hr => by
    -- a row below the screen has no cell in either grid
    have hrow : b.rows ≤ r := Nat.not_lt.mp hr
    have hout : b.rows * b.cols ≤ r * b.cols + c :=
      Nat.le_trans (Nat.mul_le_mul_right b.cols hrow) (Nat.le_add_right _ c)
    have hnone : ∀ b' : ScreenBuffer, b'.Shaped → b'.rows = b.rows → b'.cols = b.cols →
        b'.get r c = none := by
      intro b' hb' hrows hcols
      unfold get
      rw [List.getElem?_eq_none_iff, length_grid hb', hrows, hcols]
      exact hout
    rw [hnone b h rfl rfl]
    exact hnone _ ⟨h.primary, h.alternate, h.dirty⟩ rfl rfl

theorem enableAlternate_painted : Yields b.enableAlternate (Painted b) := by
  refine .ite (fun _ => .pure (.refl b)) fun _ => ?_
  have hswitch := switch_touches h true
  refine (blankGrid_touches (hswitch.shaped h)).bind fun b' hb' => .pure ?_
  exact (markAllDirty_repaints h (hswitch.trans hb')).1

theorem disableAlternate_painted : Painted b b.disableAlternate := by
  unfold disableAlternate
  split
  · exact (markAllDirty_repaints h (switch_touches h false)).1
  · exact .refl b

/-- A new buffer of another size has the right shape. -/
theorem resize_shaped (newRows newCols : ℕ) :
    Yields (b.resize newRows newCols) fun b' =>
      b'.rows = newRows ∧ b'.cols = newCols ∧ b'.Shaped := by
  have hcopy : Yields (loop 0 (min b.rows newRows) (fun grids r =>
      loop 0 (min b.cols newCols) (b.copyCell newCols r) grids)
      (List.replicate (newRows * newCols) ({} : Cell),
        List.replicate (newRows * newCols) ({} : Cell)))
      fun grids => grids.1.length = newRows * newCols ∧ grids.2.length = newRows * newCols := by
    refine Yields.foldlM (fun r hr grids hgrids => ?_) (by simp)
    refine Yields.foldlM (fun c hc grids hgrids => ?_) hgrids
    rw [List.mem_range'_1] at hr hc
    have hold : r * b.cols + c < b.rows * b.cols := index_lt (by omega) (by omega)
    have hnew : r * newCols + c < newRows * newCols := index_lt (by omega) (by omega)
    unfold copyCell
    rw [List.getElem?_eq_getElem (h.primary ▸ hold), List.getElem?_eq_getElem (h.alternate ▸ hold)]
    simp only [Option.bind_eq_bind, Option.bind_some]
    rw [setAt_eq (hgrids.1 ▸ hnew), Option.bind_some, setAt_eq (hgrids.2 ▸ hnew)]
    exact .pure (by simpa using hgrids)
  refine hcopy.bind fun grids hgrids => .pure ⟨rfl, rfl, ?_⟩
  exact ⟨hgrids.1, hgrids.2, List.length_replicate ..⟩

end ScreenBuffer

end RacOS.RacTerm
