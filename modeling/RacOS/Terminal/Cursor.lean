import RacOS.Lib.Total

/-!
# The cursor

The model of `terminal/src/cursor.rs`.  Where the source subtracts one from a dimension, the
operation fails if the dimension is zero.  A cursor inside a screen of at least one cell stays
inside it under every operation.
-/

namespace RacOS.RacTerm

open Total

/-! ## The model -/

/-- The cursor, with the scroll region from `scrollTop` up to, and without, `scrollBottom`. -/
structure Cursor where
  row : ℕ
  col : ℕ
  visible : Bool
  savedRow : ℕ
  savedCol : ℕ
  scrollTop : ℕ
  scrollBottom : ℕ
  maxRows : ℕ
  maxCols : ℕ
  wrapPending : Bool

namespace Cursor

protected def new (rows cols : ℕ) : Cursor where
  row := 0
  col := 0
  visible := true
  savedRow := 0
  savedCol := 0
  scrollTop := 0
  scrollBottom := rows
  maxRows := rows
  maxCols := cols
  wrapPending := false

def moveUp (c : Cursor) (n : ℕ) : Cursor :=
  { c with row := if c.row - n < c.scrollTop then c.scrollTop else c.row - n, wrapPending := false }

def moveDown (c : Cursor) (n : ℕ) : Option Cursor := do
  let last ← checkedSub c.scrollBottom 1
  some { c with row := min (c.row + n) last, wrapPending := false }

def moveForward (c : Cursor) (n : ℕ) : Option Cursor := do
  let last ← checkedSub c.maxCols 1
  some { c with col := min (c.col + n) last, wrapPending := false }

def moveBack (c : Cursor) (n : ℕ) : Cursor := { c with col := c.col - n, wrapPending := false }

/-- Set the position, counted from one. -/
def setPosition (c : Cursor) (row col : ℕ) : Option Cursor := do
  let lastRow ← checkedSub c.maxRows 1
  let lastCol ← checkedSub c.maxCols 1
  some { c with row := min (row - 1) lastRow, col := min (col - 1) lastCol, wrapPending := false }

def carriageReturn (c : Cursor) : Cursor := { c with col := 0, wrapPending := false }

/-- Move down one row; the flag says that the region has to scroll instead. -/
def lineFeed (c : Cursor) : Bool × Cursor :=
  let c := { c with wrapPending := false }
  if c.scrollBottom ≤ c.row + 1 then (true, c) else (false, { c with row := c.row + 1 })

/-- Move up one row; the flag says that the region has to scroll down instead. -/
def reverseIndex (c : Cursor) : Bool × Cursor :=
  let c := { c with wrapPending := false }
  if c.row ≤ c.scrollTop then (true, c) else (false, { c with row := c.row - 1 })

def advanceAfterPrint (c : Cursor) : Cursor :=
  if c.maxCols ≤ c.col + 1 then { c with wrapPending := true } else { c with col := c.col + 1 }

def doWrap (c : Cursor) : Bool × Cursor := { c with wrapPending := false, col := 0 }.lineFeed

def backspace (c : Cursor) : Cursor :=
  { c with col := if 0 < c.col then c.col - 1 else c.col, wrapPending := false }

/-- Go to the next of the tab stops, which are eight columns apart. -/
def tab (c : Cursor) : Option Cursor :=
  let col := (c.col / 8 + 1) * 8
  if c.maxCols ≤ col then do
    let last ← checkedSub c.maxCols 1
    some { c with col := last, wrapPending := false }
  else some { c with col, wrapPending := false }

def save (c : Cursor) : Cursor := { c with savedRow := c.row, savedCol := c.col }

def restore (c : Cursor) : Option Cursor := do
  let lastRow ← checkedSub c.maxRows 1
  let lastCol ← checkedSub c.maxCols 1
  some { c with row := min c.savedRow lastRow, col := min c.savedCol lastCol, wrapPending := false }

/-- Set the scroll region, counted from one, and move to its first row. -/
def setScrollRegion (c : Cursor) (top bottom : ℕ) : Cursor :=
  let top := top - 1
  let bottom := if bottom = 0 then c.maxRows else min bottom c.maxRows
  if top < bottom then
    { c with scrollTop := top, scrollBottom := bottom, row := top, col := 0, wrapPending := false }
  else c

def resize (c : Cursor) (rows cols : ℕ) : Cursor :=
  { c with
    maxRows := rows, maxCols := cols, scrollTop := 0, scrollBottom := rows,
    row := min c.row (rows - 1), col := min c.col (cols - 1), wrapPending := false }

/-! ## Inside the screen -/

/-- The cursor and the scroll region lie inside a screen. -/
structure Inside (rows cols : ℕ) (c : Cursor) : Prop where
  maxRows : c.maxRows = rows
  maxCols : c.maxCols = cols
  row : c.row < rows
  col : c.col < cols
  scrollTop : c.scrollTop < c.scrollBottom
  scrollBottom : c.scrollBottom ≤ rows

variable {c : Cursor} {rows cols : ℕ}

theorem new_inside (hrows : 0 < rows) (hcols : 0 < cols) :
    (Cursor.new rows cols).Inside rows cols :=
  ⟨rfl, rfl, hrows, hcols, hrows, Nat.le_refl rows⟩

namespace Inside

section

variable (h : c.Inside rows cols)

include h

theorem moveUp (n : ℕ) : (c.moveUp n).Inside rows cols := by
  refine { h with row := ?_ }
  have := h.row
  have := h.scrollTop
  have := h.scrollBottom
  unfold Cursor.moveUp
  dsimp only
  split <;> omega

theorem moveDown (n : ℕ) : Yields (c.moveDown n) (Inside rows cols) := by
  have htop := h.scrollTop
  have hbottom := h.scrollBottom
  unfold Cursor.moveDown
  rw [checkedSub_eq (by omega)]
  exact .pure { h with row := by dsimp only; omega }

theorem moveForward (n : ℕ) : Yields (c.moveForward n) (Inside rows cols) := by
  have hcol := h.col
  have hmax := h.maxCols
  unfold Cursor.moveForward
  rw [checkedSub_eq (by omega)]
  exact .pure { h with col := by dsimp only; omega }

theorem moveBack (n : ℕ) : (c.moveBack n).Inside rows cols :=
  { h with col := Nat.lt_of_le_of_lt (Nat.sub_le c.col n) h.col }

theorem setPosition (row col : ℕ) :
    Yields (c.setPosition row col) (Inside rows cols) := by
  have hrow := h.row
  have hcol := h.col
  have hmaxRows := h.maxRows
  have hmaxCols := h.maxCols
  unfold Cursor.setPosition
  rw [checkedSub_eq (by omega), checkedSub_eq (by omega)]
  exact .pure { h with row := by dsimp only; omega, col := by dsimp only; omega }

theorem carriageReturn : c.carriageReturn.Inside rows cols :=
  { h with col := Nat.zero_lt_of_lt h.col }

theorem lineFeed : c.lineFeed.2.Inside rows cols := by
  unfold Cursor.lineFeed
  dsimp only
  split
  · exact { h with }
  · have := h.scrollBottom
    exact { h with row := by dsimp only; omega }

theorem reverseIndex : c.reverseIndex.2.Inside rows cols := by
  unfold Cursor.reverseIndex
  dsimp only
  split
  · exact { h with }
  · exact { h with row := Nat.lt_of_le_of_lt (Nat.sub_le c.row 1) h.row }

theorem advanceAfterPrint : c.advanceAfterPrint.Inside rows cols := by
  unfold Cursor.advanceAfterPrint
  split
  · exact { h with }
  · have := h.maxCols
    exact { h with col := by dsimp only; omega }

theorem doWrap : c.doWrap.2.Inside rows cols :=
  lineFeed { h with col := Nat.zero_lt_of_lt h.col }

theorem backspace : c.backspace.Inside rows cols := by
  refine { h with col := ?_ }
  have := h.col
  unfold Cursor.backspace
  dsimp only
  split <;> omega

theorem tab : Yields c.tab (Inside rows cols) := by
  have hcol := h.col
  have hmax := h.maxCols
  refine .ite (fun _ => ?_) fun hlt => .pure { h with col := by dsimp only; omega }
  rw [checkedSub_eq (by omega)]
  exact .pure { h with col := by dsimp only; omega }

theorem save : c.save.Inside rows cols := { h with }

theorem restore : Yields c.restore (Inside rows cols) := by
  have hrow := h.row
  have hcol := h.col
  have hmaxRows := h.maxRows
  have hmaxCols := h.maxCols
  unfold Cursor.restore
  rw [checkedSub_eq (by omega), checkedSub_eq (by omega)]
  exact .pure { h with row := by dsimp only; omega, col := by dsimp only; omega }

theorem setScrollRegion (top bottom : ℕ) :
    (c.setScrollRegion top bottom).Inside rows cols := by
  have hmax := h.maxRows
  have hle : (if bottom = 0 then c.maxRows else min bottom c.maxRows) ≤ rows := by
    split <;> omega
  unfold Cursor.setScrollRegion
  dsimp only
  generalize (if bottom = 0 then c.maxRows else min bottom c.maxRows) = bottom at hle
  split
  · rename_i hlt
    exact { h with
      row := Nat.lt_of_lt_of_le hlt hle
      col := Nat.zero_lt_of_lt h.col
      scrollTop := hlt
      scrollBottom := hle }
  · exact h

end

/-- After a resize the cursor is inside the new screen, wherever it was. -/
theorem resize (c : Cursor) (hrows : 0 < rows) (hcols : 0 < cols) :
    (c.resize rows cols).Inside rows cols where
  maxRows := rfl
  maxCols := rfl
  row := by
    unfold Cursor.resize
    dsimp only
    omega
  col := by
    unfold Cursor.resize
    dsimp only
    omega
  scrollTop := hrows
  scrollBottom := Nat.le_refl rows

end Inside

end Cursor

end RacOS.RacTerm
