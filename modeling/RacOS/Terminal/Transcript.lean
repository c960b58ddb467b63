import RacOS.Terminal.Cells
import RacOS.Terminal.Printed

/-!
# The transcript

Lines of text that are sent to a fresh terminal, with a carriage return and a line feed between
them.  The rows of the scrollback and of the screen are the lines, wrapped at the width, and the
scrollback has lost the rows beyond its limit.

The invariant speaks of the rows so far: the earlier ones, and the one that the cursor is in.  A
row that is full keeps its cursor in the last column until another character comes.
-/

namespace RacOS.RacTerm

open Total

/-! ## Text for the decoder -/

namespace Decoder

/-- A printable character of ASCII. -/
def Printable (x : UInt8) : Prop := 0x20 ≤ x ∧ x < 0x7F

theorem byte_printable {d : Decoder} (hidle : d.Idle) {x : UInt8} (hx : Printable x) :
    d.byte x = (d, [.print (charOf x)]) := by
  have hlt := UInt8.lt_iff_toNat_lt.mp hx.2
  refine byte_plain hidle ⟨hx.1, ?_⟩ (Nat.lt_trans hlt (by decide))
  rintro rfl
  exact absurd hx.2 (by decide)

theorem byte_control {d : Decoder} (hidle : d.Idle) {x : UInt8} (hx : x ≤ 0x1F) (hesc : x ≠ 0x1B) :
    d.byte x = (d, [.execute x]) := by
  have hlt := UInt8.le_iff_toNat_le.mp hx
  have hparser : d.parser.feed x = (d.parser, some (.execute x)) := by
    unfold EscParser.feed
    rw [hidle.parser]
    dsimp only
    unfold EscParser.ground
    rw [if_neg hesc, if_pos hx]
  unfold byte
  rw [if_pos (UInt8.lt_iff_toNat_lt.mpr (Nat.lt_of_le_of_lt hlt (by decide)))]
  unfold ascii
  rw [hparser, hidle.utf8]
  rfl

/-- The action for a byte of a text. -/
def textAction (x : UInt8) : Action := if x ≤ 0x1F then .execute x else .print (charOf x)

theorem textAction_printable {x : UInt8} (hx : Printable x) : textAction x = .print (charOf x) := by
  have hle := UInt8.le_iff_toNat_le.mp hx.1
  refine if_neg fun hcontrol => ?_
  have hle' := UInt8.le_iff_toNat_le.mp hcontrol
  exact absurd (Nat.le_trans hle hle') (by decide)

/-- Text leaves the decoder idle, and every byte is an action. -/
theorem bytes_text {d : Decoder} (hidle : d.Idle) {data : List UInt8}
    (hdata : ∀ x ∈ data, Printable x ∨ x ≤ 0x1F ∧ x ≠ 0x1B) :
    d.bytes data = (d, data.map textAction) := by
  induction data with
  | nil => rfl
  | cons x data ih =>
    have hbyte : d.byte x = (d, [textAction x]) := by
      rcases hdata x List.mem_cons_self with hx | ⟨hx, hesc⟩
      · rw [textAction_printable hx, byte_printable hidle hx]
      · rw [byte_control hidle hx hesc]
        unfold textAction
        rw [if_pos hx]
    rw [bytes_cons, hbyte, ih fun y hy => hdata y (List.mem_cons_of_mem x hy)]
    rfl

end Decoder

/-! ## Rows of cells -/

/-- The cell of a byte of text. -/
def textCell (x : UInt8) : Cell := { character := charOf x }

/-- A row that starts with some text. -/
def textRow (cols : ℕ) (text : List UInt8) : List Cell :=
  text.map textCell ++ List.replicate (cols - text.length) ({} : Cell)

/-- A grid that starts with some rows. -/
def textGrid (rows cols : ℕ) (lines : List (List UInt8)) : List Cell :=
  lines.flatMap (textRow cols) ++ List.replicate ((rows - lines.length) * cols) ({} : Cell)

variable {rows cols : ℕ}

theorem length_textRow {text : List UInt8} (h : text.length ≤ cols) :
    (textRow cols text).length = cols := by
  unfold textRow
  rw [List.length_append, List.length_map, List.length_replicate]
  omega

theorem length_flatMap_textRow {lines : List (List UInt8)} (h : ∀ l ∈ lines, l.length ≤ cols) :
    (lines.flatMap (textRow cols)).length = lines.length * cols := by
  induction lines with
  | nil => exact (Nat.zero_mul cols).symm
  | cons l lines ih =>
    rw [List.flatMap_cons, List.length_append, length_textRow (h l List.mem_cons_self),
      ih fun l' hl' => h l' (List.mem_cons_of_mem l hl'), List.length_cons, Nat.succ_mul,
      Nat.add_comm]

theorem textRow_nil : textRow cols [] = List.replicate cols ({} : Cell) := rfl

/-- A row that is blank need not be mentioned. -/
theorem textGrid_snoc_nil {lines : List (List UInt8)} (h : lines.length < rows) :
    textGrid rows cols (lines ++ [[]]) = textGrid rows cols lines := by
  have hrest : (rows - lines.length) * cols = cols + (rows - (lines.length + 1)) * cols := by
    rw [Nat.add_comm, ← Nat.succ_mul, Nat.succ_eq_add_one]
    congr 1
    omega
  unfold textGrid
  rw [List.flatMap_append, List.flatMap_singleton, textRow_nil, List.length_append,
    List.length_singleton, List.append_assoc, List.replicate_append_replicate, hrest]

theorem textGrid_scroll {line : List UInt8} {lines : List (List UInt8)} (hline : line.length ≤ cols)
    (hrows : lines.length + 1 = rows) :
    (textGrid rows cols (line :: lines)).drop cols ++ List.replicate cols ({} : Cell) =
      textGrid rows cols (lines ++ [[]]) := by
  unfold textGrid
  rw [List.flatMap_cons, List.append_assoc, List.drop_left' (length_textRow hline),
    List.flatMap_append, List.flatMap_singleton, textRow_nil, List.length_append,
    List.length_singleton, List.length_cons, hrows, Nat.sub_self, Nat.zero_mul]
  simp only [List.replicate_zero, List.append_nil]

theorem textGrid_set {lines : List (List UInt8)} {line : List UInt8} (hlines : ∀ l ∈ lines,
    l.length ≤ cols) (hline : line.length < cols) (x : UInt8) :
    (textGrid rows cols (lines ++ [line])).set (lines.length * cols + line.length) (textCell x) =
      textGrid rows cols (lines ++ [line ++ [x]]) := by
  have hrow : (textRow cols line).set line.length (textCell x) = textRow cols (line ++ [x]) := by
    have hblank : cols - line.length = (cols - (line.length + 1)) + 1 := by omega
    unfold textRow
    rw [List.set_append_right _ _ (Nat.le_of_eq (List.length_map _)), List.length_map, Nat.sub_self,
      hblank, List.replicate_succ, List.set_cons_zero, List.map_append, List.length_append,
      List.append_assoc]
    rfl
  have hlt : line.length < (textRow cols line).length := by
    rw [length_textRow (Nat.le_of_lt hline)]
    exact hline
  have hlength := length_flatMap_textRow hlines
  unfold textGrid
  rw [List.flatMap_append, List.flatMap_singleton, List.flatMap_append, List.flatMap_singleton,
    List.length_append, List.length_append, List.append_assoc, List.append_assoc,
    List.set_append_right _ _ (by omega), hlength, Nat.add_sub_cancel_left,
    List.set_append_left _ _ hlt, hrow]
  rfl

theorem textGrid_row {lines : List (List UInt8)} (hlines : ∀ l ∈ lines, l.length ≤ cols) {i : ℕ}
    (hi : i < lines.length) :
    ((textGrid rows cols lines).drop (i * cols)).take cols = textRow cols lines[i] := by
  have hsplit : lines.flatMap (textRow cols) = (lines.take i).flatMap (textRow cols) ++
      (textRow cols lines[i] ++ (lines.drop (i + 1)).flatMap (textRow cols)) := by
    rw [← List.flatMap_cons, List.getElem_cons_drop, ← List.flatMap_append, List.take_append_drop]
  have hlength : ((lines.take i).flatMap (textRow cols)).length = i * cols := by
    rw [length_flatMap_textRow fun l hl => hlines l (List.mem_of_mem_take hl),
      List.length_take_of_le (Nat.le_of_lt hi)]
  have hrow := length_textRow (hlines lines[i] (List.getElem_mem hi))
  unfold textGrid
  rw [hsplit, List.append_assoc, List.drop_left' hlength, List.append_assoc, List.take_left' hrow]

/-- A scrollback that has kept the last rows, and one row more. -/
theorem retained_drop (limit : ℕ) (scrolled : List (List Cell)) (row : List Cell) :
    ScreenBuffer.retained limit (scrolled.drop (scrolled.length - limit)) [row] =
      (scrolled ++ [row]).drop (scrolled.length + 1 - limit) := by
  unfold ScreenBuffer.retained
  split
  · rename_i hlimit
    change ScreenBuffer.retain limit _ row = _
    unfold ScreenBuffer.retain
    rw [List.length_append, List.length_drop, List.length_singleton]
    by_cases hroom : scrolled.length < limit
    · rw [if_neg (by omega), Nat.sub_eq_zero_of_le (by omega),
        Nat.sub_eq_zero_of_le (by omega), List.drop_zero, List.drop_zero]
    · have hone : scrolled.length + 1 - limit = scrolled.length - limit + 1 := by omega
      rw [if_pos (by omega), hone, ← List.drop_one, ← List.drop_append_of_le_length (by omega),
        List.drop_drop]
  · rename_i hlimit
    obtain rfl := Nat.eq_zero_of_not_pos hlimit
    simp

/-! ## The invariant -/

namespace Terminal

/-- The primary screen of a size, which scrolls as a whole. -/
structure Primary (rows cols limit : ℕ) (t : Terminal) : Prop where
  shaped : t.buffer.Shaped
  rows_eq : t.buffer.rows = rows
  cols_eq : t.buffer.cols = cols
  usingAlternate : t.buffer.usingAlternate = false
  scrollbackLimit : t.buffer.scrollbackLimit = limit
  style : t.style = {}
  maxCols : t.cursor.maxCols = cols
  scrollTop : t.cursor.scrollTop = 0
  scrollBottom : t.cursor.scrollBottom = rows

/-- The terminal has shown the rows `past`, and shows `line` in the row of the cursor. -/
structure Shows (rows cols limit : ℕ) (past : List (List UInt8)) (line : List UInt8)
    (t : Terminal) : Prop extends Primary rows cols limit t where
  past_le : ∀ l ∈ past, l.length ≤ cols
  line_le : line.length ≤ cols
  row : t.cursor.row = min past.length (rows - 1)
  col : line.length < cols → t.cursor.col = line.length ∧ t.cursor.wrapPending = false
  full : line.length = cols → t.cursor.wrapPending = true
  primary : t.buffer.primary = textGrid rows cols ((past ++ [line]).drop (past.length + 1 - rows))
  scrollback : t.buffer.scrollback =
    (((past ++ [line]).take (past.length + 1 - rows)).map (textRow cols)).drop
      (past.length + 1 - rows - limit)

variable {limit : ℕ} {past : List (List UInt8)} {line : List UInt8} {t t' : Terminal}

theorem Primary.grid (h : Primary rows cols limit t) : t.buffer.grid = t.buffer.primary := by
  unfold ScreenBuffer.grid
  rw [h.usingAlternate]
  rfl

theorem Primary.move (h : Primary rows cols limit t) {c : Cursor}
    (hcols : c.maxCols = t.cursor.maxCols) (htop : c.scrollTop = t.cursor.scrollTop)
    (hbottom : c.scrollBottom = t.cursor.scrollBottom) :
    Primary rows cols limit { t with cursor := c } where
  __ := h
  maxCols := hcols.trans h.maxCols
  scrollTop := htop.trans h.scrollTop
  scrollBottom := hbottom.trans h.scrollBottom

theorem Primary.paint (h : Primary rows cols limit t) {b : ScreenBuffer}
    (hpainted : t.buffer.Painted b) (hmode : b.usingAlternate = t.buffer.usingAlternate)
    (hlimit : b.scrollbackLimit = t.buffer.scrollbackLimit) :
    Primary rows cols limit { t with buffer := b } where
  __ := h
  shaped := hpainted.shaped h.shaped
  rows_eq := hpainted.rows.trans h.rows_eq
  cols_eq := hpainted.cols.trans h.cols_eq
  usingAlternate := hmode.trans h.usingAlternate
  scrollbackLimit := hlimit.trans h.scrollbackLimit

theorem advanceAfterPrint_fields (c : Cursor) :
    c.advanceAfterPrint.row = c.row ∧ c.advanceAfterPrint.maxCols = c.maxCols ∧
      c.advanceAfterPrint.scrollTop = c.scrollTop ∧
      c.advanceAfterPrint.scrollBottom = c.scrollBottom := by
  unfold Cursor.advanceAfterPrint
  split <;> exact ⟨rfl, rfl, rfl, rfl⟩

/-! ## Lines -/

/-- The rows of a line on a screen of some width. -/
def wrapped (cols : ℕ) (line : List UInt8) : List (List UInt8) :=
  if 0 < cols ∧ cols < line.length then line.take cols :: wrapped cols (line.drop cols) else [line]
termination_by line.length
decreasing_by
  rw [List.length_drop]
  omega

/-- The terminal has shown some rows, the last of them in the row of the cursor. -/
def ShowsRows (rows cols limit : ℕ) (lines : List (List UInt8)) (t : Terminal) : Prop :=
  ∃ past line, past ++ [line] = lines ∧ Shows rows cols limit past line t

/-- A text that is longer than a row: its first row, and then the rest. -/
theorem execute_take (t : Terminal) (text : List UInt8) (n : ℕ) :
    t.execute (text.map fun x => .print (charOf x)) =
      t.execute ((text.take n).map fun x => .print (charOf x)) >>= fun t =>
        t.execute ((text.drop n).map fun x => .print (charOf x)) := by
  rw [← execute_append, ← List.map_append, List.take_append_drop]

section Writing

variable (h : Shows rows cols limit past line t)

include h

theorem Shows.lines_le : ∀ l ∈ past ++ [line], l.length ≤ cols := by
  intro l hl
  rcases List.mem_append.mp hl with hl | hl
  · exact h.past_le l hl
  · rw [List.mem_singleton.mp hl]
    exact h.line_le

theorem Shows.nextRow (hcols : 0 < cols) {c : Cursor}
    (hc : Primary rows cols limit { t with cursor := c }) (hrow : c.row = t.cursor.row + 1)
    (hcol : c.col = 0) (hwrap : c.wrapPending = false) (hroom : past.length + 1 < rows) :
    Shows rows cols limit (past ++ [line]) [] { t with cursor := c } where
  __ := hc
  past_le := h.lines_le
  line_le := Nat.zero_le cols
  row := by
    have hold := h.row
    change c.row = _
    rw [hrow, List.length_append, List.length_singleton]
    omega
  col := fun _ => ⟨hcol, hwrap⟩
  full := fun hfull => absurd hfull (Nat.ne_of_lt hcols)
  primary := by
    have hold := h.primary
    rw [Nat.sub_eq_zero_of_le (by omega), List.drop_zero] at hold
    rw [Nat.sub_eq_zero_of_le (by rw [List.length_append]; exact hroom), List.drop_zero,
      textGrid_snoc_nil (by rw [List.length_append]; exact hroom)]
    exact hold
  scrollback := by
    have hold := h.scrollback
    have hzero : past.length + 1 - rows = 0 := by omega
    have hzero' : (past ++ [line]).length + 1 - rows = 0 := by
      rw [List.length_append]
      exact Nat.sub_eq_zero_of_le hroom
    rw [hzero, List.take_zero] at hold
    rw [hzero', List.take_zero]
    exact hold

theorem Shows.put (hrows : 0 < rows) (hroom : line.length < cols) (x : UInt8) :
    Yields (t.onBuffer (fun b => b.putChar t.cursor.row t.cursor.col (charOf x) t.style.fg
      t.style.bg t.style.attrs) >>= fun t => some { t with cursor := t.cursor.advanceAfterPrint })
      (Shows rows cols limit past (line ++ [x])) := by
  obtain ⟨hcol, hwrap⟩ := h.col hroom
  have hmax := h.maxCols
  have hrow := h.row
  obtain ⟨n, hn⟩ : ∃ n, n = past.length + 1 - rows := ⟨_, rfl⟩
  have hrow' : t.cursor.row < t.buffer.rows := by rw [h.rows_eq]; omega
  have hcol' : t.cursor.col < t.buffer.cols := by rw [h.cols_eq, hcol]; exact hroom
  have hpast : (past.drop n).length = t.cursor.row := by
    rw [List.length_drop]
    omega
  have hdrop : ∀ l : List UInt8, (past ++ [l]).drop n = past.drop n ++ [l] := fun l =>
    List.drop_append_of_le_length (by omega)
  have htake : ∀ l : List UInt8, (past ++ [l]).take n = past.take n := fun l =>
    List.take_append_of_le_length (by omega)
  have hold := h.primary
  have hlog := h.scrollback
  rw [← hn, hdrop] at hold
  rw [← hn, htake] at hlog
  rw [h.style]
  have hput : Yields (t.onBuffer fun b =>
      b.putChar t.cursor.row t.cursor.col (charOf x) .default .default {}) fun t₁ =>
      ∃ b, t₁ = { t with buffer := b } ∧ t.buffer.Painted b ∧ t.buffer.Keeps b ∧
        b.grid = t.buffer.grid.set (t.cursor.row * t.buffer.cols + t.cursor.col) (textCell x) :=
    ((ScreenBuffer.putChar_painted h.shaped _ _ _ _ _ _).and
      (ScreenBuffer.putChar_set h.shaped hrow' hcol' _ _ _ _)).bind fun b hb =>
        .pure ⟨b, rfl, hb.1, hb.2.1, hb.2.2⟩
  refine hput.bind ?_
  rintro t₁ ⟨b, rfl, hpainted, hkeeps, hgrid⟩
  have hlength : (line ++ [x]).length = line.length + 1 := List.length_append
  obtain ⟨hrow'', hmax'', htop'', hbottom''⟩ := advanceAfterPrint_fields t.cursor
  have hp := (h.move hmax'' htop'' hbottom'').paint hpainted hkeeps.usingAlternate
    hkeeps.scrollbackLimit
  refine .pure
    { toPrimary := hp
      past_le := h.past_le
      line_le := Nat.le_trans (Nat.le_of_eq hlength) hroom
      row := hrow''.trans hrow
      col := fun hlt => ?_
      full := fun hfull => ?_
      primary := ?_
      scrollback := ?_ }
  · have hadvance : t.cursor.advanceAfterPrint = { t.cursor with col := t.cursor.col + 1 } :=
      if_neg (by omega)
    dsimp only
    rw [hadvance]
    exact ⟨(congrArg (· + 1) hcol).trans hlength.symm, hwrap⟩
  · have hadvance : t.cursor.advanceAfterPrint = { t.cursor with wrapPending := true } :=
      if_pos (by omega)
    dsimp only
    rw [hadvance]
  · change b.primary = _
    rw [← hn, hdrop, ← hp.grid, hgrid, h.grid, hold, h.cols_eq, hcol, ← hpast]
    exact textGrid_set (fun l hl => h.past_le l (List.mem_of_mem_drop hl)) hroom x
  · change b.scrollback = _
    rw [← hn, htake, hkeeps.scrollback]
    exact hlog

variable (hrows : 0 < rows) (hcols : 0 < cols)

include hrows hcols

theorem Shows.scroll {c : Cursor} (hc : Primary rows cols limit { t with cursor := c })
    (hrow : c.row = t.cursor.row) (hcol : c.col = 0) (hwrap : c.wrapPending = false)
    (hfull : rows ≤ past.length + 1) :
    Yields ({ t with cursor := c }.onBuffer fun b => b.scrollUp 1 c.scrollTop c.scrollBottom)
      (Shows rows cols limit (past ++ [line]) []) := by
  have hrows' : 0 < t.buffer.rows := h.rows_eq ▸ hrows
  have hlength : (past ++ [line]).length = past.length + 1 := List.length_append
  -- the rows that have left the screen, and the one that leaves it now
  obtain ⟨n, hn⟩ : ∃ n, n = past.length + 1 - rows := ⟨_, rfl⟩
  have hn' : (past ++ [line]).length + 1 - rows = n + 1 := by omega
  have hlt : n < (past ++ [line]).length := by omega
  have hdrop := List.drop_eq_getElem_cons hlt
  have hold := h.primary
  have hlog := h.scrollback
  rw [← hn, hdrop] at hold
  rw [← hn] at hlog
  have hfirst : t.buffer.primaryRow 0 = textRow cols (past ++ [line])[n] := by
    have hle : ∀ l ∈ (past ++ [line])[n] :: (past ++ [line]).drop (n + 1), l.length ≤ cols := by
      rw [← hdrop]
      exact fun l hl => h.lines_le l (List.mem_of_mem_drop hl)
    unfold ScreenBuffer.primaryRow
    rw [h.cols_eq, hold]
    exact textGrid_row hle (i := 0) (Nat.succ_pos _)
  have hrest : ((past ++ [line]).drop (n + 1)).length + 1 = rows := by
    rw [List.length_drop]
    omega
  rw [show c.scrollTop = 0 from hc.scrollTop, show c.scrollBottom = rows from hc.scrollBottom,
    ← h.rows_eq]
  refine ((ScreenBuffer.scrollUp_painted h.shaped hrows' 1 0 t.buffer.rows).and
    (ScreenBuffer.scrollUp_whole h.shaped hrows')).bind ?_
  rintro b ⟨hb, hkeeps, hgrid⟩
  have hp := hc.paint hb hkeeps.usingAlternate hkeeps.scrollbackLimit
  rw [h.rows_eq]
  refine .pure
    { toPrimary := hp
      past_le := h.lines_le
      line_le := Nat.zero_le cols
      row := ?_
      col := fun _ => ⟨hcol, hwrap⟩
      full := fun hempty => absurd hempty (Nat.ne_of_lt hcols)
      primary := ?_
      scrollback := ?_ }
  · have := h.row
    change c.row = _
    rw [hlength]
    omega
  · rw [hn', List.drop_append_of_le_length (Nat.succ_le_of_lt hlt),
      ← textGrid_scroll (h.lines_le _ (List.getElem_mem hlt)) hrest, ← hold, ← hp.grid]
    rw [h.grid, h.cols_eq] at hgrid
    exact hgrid
  · have hsaved : b.scrollback = ScreenBuffer.retained limit t.buffer.scrollback
        [t.buffer.primaryRow 0] := by
      rw [hkeeps.scrollback]
      unfold ScreenBuffer.log
      dsimp only
      rw [h.usingAlternate, h.scrollbackLimit]
      rfl
    have htake : ((past ++ [line]).take n).length = n := List.length_take_of_le (Nat.le_of_lt hlt)
    have hretained := retained_drop limit (((past ++ [line]).take n).map (textRow cols))
      (textRow cols (past ++ [line])[n])
    rw [List.length_map, htake] at hretained
    rw [hn', List.take_append_of_le_length (Nat.succ_le_of_lt hlt),
      ← List.take_append_getElem hlt, List.map_append]
    exact hsaved.trans (by rw [hlog, hfirst]; exact hretained)

theorem Shows.newline {c : Cursor}
    (hc : c = { t.cursor with col := 0, wrapPending := c.wrapPending }) :
    Yields (t.scrollAfter c.lineFeed ScreenBuffer.scrollUp)
      (Shows rows cols limit (past ++ [line]) []) := by
  have hrow : c.row = t.cursor.row := by rw [hc]
  have hcol : c.col = 0 := by rw [hc]
  have hbottom : c.scrollBottom = rows := by rw [hc]; exact h.scrollBottom
  have hrow' := h.row
  have hmove := fun row => h.move (c := { c with wrapPending := false, row := row })
    (by rw [hc]) (by rw [hc]) (by rw [hc])
  by_cases hroom : past.length + 1 < rows
  · have hfeed : c.lineFeed = (false, { c with wrapPending := false, row := c.row + 1 }) := by
      unfold Cursor.lineFeed
      dsimp only
      rw [if_neg (by omega)]
    rw [hfeed]
    exact .pure (h.nextRow hcols (hmove _) (by rw [← hrow]) hcol rfl hroom)
  · have hfeed : c.lineFeed = (true, { c with wrapPending := false }) := by
      unfold Cursor.lineFeed
      dsimp only
      rw [if_pos (by omega)]
    rw [hfeed]
    exact h.scroll hrows hcols (hmove c.row) hrow hcol rfl (by omega)

/-- A character: in the row of the cursor if there is room, or else in the next one. -/
theorem Shows.print (x : UInt8) : Yields (t.print (charOf x))
      (if line.length < cols then Shows rows cols limit past (line ++ [x])
        else Shows rows cols limit (past ++ [line]) [x]) := by
  unfold Terminal.print wrap
  by_cases hroom : line.length < cols
  · rw [if_pos hroom, (h.col hroom).2, if_neg Bool.false_ne_true]
    exact h.put hrows hroom x
  · have hfull := Nat.le_antisymm h.line_le (Nat.not_lt.mp hroom)
    rw [if_neg hroom, h.full hfull, if_pos rfl]
    have hwrap := h.newline hrows hcols (c := { t.cursor with wrapPending := false, col := 0 }) rfl
    exact hwrap.bind fun t₁ h₁ => h₁.put hrows hcols x

theorem Shows.crlf :
    Yields (t.execute [.execute 0x0D, .execute 0x0A])
      (Shows rows cols limit (past ++ [line]) []) := by
  have hlf := h.newline hrows hcols (c := t.cursor.carriageReturn) rfl
  exact hlf.bind fun t₁ h₁ => .pure h₁

theorem Shows.printRow {text : List UInt8} (htext : line.length + text.length ≤ cols) :
    Yields (t.execute (text.map fun x => .print (charOf x)))
      (Shows rows cols limit past (line ++ text)) := by
  induction text generalizing t line with
  | nil =>
    rw [List.append_nil]
    exact .pure h
  | cons x text ih =>
    rw [List.length_cons] at htext
    have hprint := h.print hrows hcols x
    rw [if_pos (by omega)] at hprint
    refine hprint.bind fun t₁ h₁ => ?_
    have hrest := ih h₁ (by rw [List.length_append, List.length_singleton]; omega)
    rwa [List.append_assoc] at hrest

theorem Shows.printNext (hfull : line.length = cols) {text : List UInt8} (htext : text ≠ [])
    (hle : text.length ≤ cols) :
    Yields (t.execute (text.map fun x => .print (charOf x)))
      (Shows rows cols limit (past ++ [line]) text) := by
  obtain ⟨x, text, rfl⟩ := List.exists_cons_of_ne_nil htext
  have hprint := h.print hrows hcols x
  rw [if_neg (by omega)] at hprint
  refine hprint.bind fun t₁ h₁ => ?_
  rw [List.length_cons] at hle
  exact h₁.printRow hrows hcols (by rw [List.length_singleton]; omega)

/-- A text after a row that is full goes on in the next row. -/
theorem Shows.printAfter (hfull : line.length = cols) {text : List UInt8} (htext : text ≠ []) :
    Yields (t.execute (text.map fun x => .print (charOf x)))
      (ShowsRows rows cols limit (past ++ [line] ++ wrapped cols text)) := by
  induction hn : text.length using Nat.strong_induction_on generalizing t past line text with
  | _ n ih =>
    rw [wrapped]
    by_cases hlong : cols < text.length
    · have htake : (text.take cols).length = cols := List.length_take_of_le (Nat.le_of_lt hlong)
      have hdrop : (text.drop cols).length = text.length - cols := List.length_drop
      have hne : ∀ {l : List UInt8}, 0 < l.length → l ≠ [] := fun hpos => by
        rintro rfl
        exact absurd hpos (Nat.lt_irrefl 0)
      have htake' : text.take cols ≠ [] := hne (by omega)
      have hdrop' : text.drop cols ≠ [] := hne (by omega)
      rw [if_pos ⟨hcols, hlong⟩, execute_take t text cols, List.append_cons]
      refine (h.printNext hrows hcols hfull htake' (Nat.le_of_eq htake)).bind fun t₁ h₁ => ?_
      exact ih _ (by omega) h₁ htake hdrop' rfl
    · rw [if_neg fun hlong' => hlong hlong'.2]
      refine (h.printNext hrows hcols hfull htext (Nat.not_lt.mp hlong)).mono fun t' ht' => ?_
      exact ⟨past ++ [line], text, rfl, ht'⟩

end Writing

theorem Shows.printLine (h : Shows rows cols limit past [] t) (hrows : 0 < rows)
    (hcols : 0 < cols) (text : List UInt8) :
    Yields (t.execute (text.map fun x => .print (charOf x)))
      (ShowsRows rows cols limit (past ++ wrapped cols text)) := by
  rw [wrapped]
  by_cases hlong : cols < text.length
  · have htake : (text.take cols).length = cols := List.length_take_of_le (Nat.le_of_lt hlong)
    have hrest : text.drop cols ≠ [] := fun hnil => by
      have hdrop : (text.drop cols).length = text.length - cols := List.length_drop
      rw [hnil, List.length_nil] at hdrop
      omega
    rw [if_pos ⟨hcols, hlong⟩, execute_take t text cols, List.append_cons]
    have hfits : 0 + (text.take cols).length ≤ cols := by rw [Nat.zero_add, htake]
    refine (h.printRow hrows hcols hfits).bind fun t₁ h₁ => ?_
    exact h₁.printAfter hrows hcols htake hrest
  · rw [if_neg fun hlong' => hlong hlong'.2]
    refine (h.printRow hrows hcols (by simpa using Nat.not_lt.mp hlong)).mono fun t' ht' => ?_
    exact ⟨past, text, rfl, ht'⟩

/-! ## The text -/

/-- Lines with a carriage return and a line feed between them. -/
def textBytes (line : List UInt8) (lines : List (List UInt8)) : List UInt8 :=
  line ++ lines.flatMap fun l => 0x0D :: 0x0A :: l

theorem textActions {line : List UInt8} {lines : List (List UInt8)}
    (htext : ∀ l ∈ line :: lines, ∀ x ∈ l, Decoder.Printable x) :
    (textBytes line lines).map Decoder.textAction = (line.map fun x => .print (charOf x)) ++
      lines.flatMap fun l =>
        .execute 0x0D :: .execute 0x0A :: l.map fun x => .print (charOf x) := by
  have hline : ∀ l ∈ line :: lines, l.map Decoder.textAction = l.map fun x => .print (charOf x) :=
    fun l hl => List.map_congr_left fun x hx => Decoder.textAction_printable (htext l hl x hx)
  unfold textBytes
  rw [List.map_append, hline line List.mem_cons_self, List.map_flatMap]
  congr 1
  refine List.flatMap_congr fun l hl => ?_
  rw [List.map_cons, List.map_cons, hline l (List.mem_cons_of_mem line hl)]
  rfl

theorem ShowsRows.lines {shown : List (List UInt8)} (h : ShowsRows rows cols limit shown t)
    (hrows : 0 < rows) (hcols : 0 < cols) (lines : List (List UInt8)) :
    Yields (t.execute (lines.flatMap fun l =>
        .execute 0x0D :: .execute 0x0A :: l.map fun x => .print (charOf x)))
      (ShowsRows rows cols limit (shown ++ lines.flatMap (wrapped cols))) := by
  induction lines generalizing t shown with
  | nil =>
    rw [List.flatMap_nil, List.flatMap_nil, List.append_nil]
    exact .pure h
  | cons l lines ih =>
    obtain ⟨past, line, rfl, hshows⟩ := h
    rw [List.flatMap_cons, List.flatMap_cons, ← List.append_assoc, execute_append]
    have hfirst : Yields (t.execute (.execute 0x0D :: .execute 0x0A ::
        l.map fun x => .print (charOf x)))
        (ShowsRows rows cols limit (past ++ [line] ++ wrapped cols l)) := by
      have hsplit := execute_append t [.execute 0x0D, .execute 0x0A]
        (l.map fun x => .print (charOf x))
      rw [List.cons_append, List.cons_append, List.nil_append] at hsplit
      rw [hsplit]
      exact (hshows.crlf hrows hcols).bind fun t₁ h₁ => h₁.printLine hrows hcols l
    exact hfirst.bind fun t₁ h₁ => ih h₁

theorem fresh_shows (hrows : 0 < rows) (hcols : 0 < cols) (limit : ℕ) :
    Shows rows cols limit [] [] ((Terminal.new rows cols).setScrollbackLimit limit) where
  shaped := ⟨List.length_replicate, List.length_replicate, List.length_replicate⟩
  rows_eq := rfl
  cols_eq := rfl
  usingAlternate := rfl
  scrollbackLimit := rfl
  style := rfl
  maxCols := rfl
  scrollTop := rfl
  scrollBottom := rfl
  past_le := fun _ hl => absurd hl List.not_mem_nil
  line_le := Nat.zero_le cols
  row := (Nat.zero_min _).symm
  col := fun _ => ⟨rfl, rfl⟩
  full := fun hfull => absurd hfull (Nat.ne_of_lt hcols)
  primary := by
    have hzero : ([] : List (List UInt8)).length + 1 - rows = 0 := Nat.sub_eq_zero_of_le hrows
    rw [hzero, List.drop_zero, textGrid_snoc_nil hrows]
    rfl
  scrollback := by
    have hzero : ([] : List (List UInt8)).length + 1 - rows = 0 := Nat.sub_eq_zero_of_le hrows
    rw [hzero, List.take_zero]
    change (if limit = 0 then [] else []) = _
    rw [ite_self]
    exact List.drop_nil.symm

/-- What is shown of some rows: the last ones are on the screen, down to the row of the cursor, and
of those before them the scrollback has the last ones. -/
structure Transcript (rows cols limit : ℕ) (lines : List (List UInt8)) (t : Terminal) : Prop where
  usingAlternate : t.buffer.usingAlternate = false
  screen : (List.range (t.cursor.row + 1)).map t.buffer.primaryRow =
    (lines.drop (lines.length - rows)).map (textRow cols)
  scrollback : t.buffer.scrollback =
    ((lines.take (lines.length - rows)).drop (lines.length - rows - limit)).map (textRow cols)

theorem ShowsRows.transcript {lines : List (List UInt8)} (hrows : 0 < rows)
    (h : ShowsRows rows cols limit lines t) : Transcript rows cols limit lines t := by
  obtain ⟨past, line, rfl, h⟩ := h
  have hlength : (past ++ [line]).length = past.length + 1 := List.length_append
  have hrow := h.row
  refine ⟨h.usingAlternate, ?_, ?_⟩
  · have hle : ∀ l ∈ (past ++ [line]).drop (past.length + 1 - rows), l.length ≤ cols :=
      fun l hl => h.lines_le l (List.mem_of_mem_drop hl)
    have hcount : ((past ++ [line]).drop (past.length + 1 - rows)).length = t.cursor.row + 1 := by
      rw [List.length_drop]
      omega
    rw [hlength]
    apply List.ext_getElem
    · rw [List.length_map, List.length_map, List.length_range, hcount]
    · intro i hi hi'
      rw [List.getElem_map, List.getElem_map, List.getElem_range]
      unfold ScreenBuffer.primaryRow
      rw [h.cols_eq, h.primary]
      exact textGrid_row hle (by simpa using hi')
  · rw [h.scrollback, hlength, List.map_drop]

/-- **The transcript.**  Whatever lines of text are sent to a fresh terminal, and in whatever
chunks, its rows are the lines wrapped at the width, and the scrollback has the last rows of those
that scrolled off. -/
theorem feed_transcript (hrows : 0 < rows) (hcols : 0 < cols) (limit : ℕ) {line : List UInt8}
    {lines : List (List UInt8)} (htext : ∀ l ∈ line :: lines, ∀ x ∈ l, Decoder.Printable x)
    {chunks : List (List UInt8)} (hchunks : chunks.flatten = textBytes line lines) :
    ∃ t, ((Terminal.new rows cols).setScrollbackLimit limit).feedChunks chunks = some t ∧
      Transcript rows cols limit ((line :: lines).flatMap (wrapped cols)) t := by
  obtain ⟨t₀, ht₀⟩ : ∃ t, t = (Terminal.new rows cols).setScrollbackLimit limit := ⟨_, rfl⟩
  have hshows : Shows rows cols limit [] [] t₀ := ht₀ ▸ fresh_shows hrows hcols limit
  have hidle : t₀.decoder.Idle := ht₀ ▸ ⟨rfl, rfl⟩
  have hbytes : t₀.decoder.bytes (textBytes line lines) =
      (t₀.decoder, (textBytes line lines).map Decoder.textAction) := by
    refine Decoder.bytes_text hidle fun x hx => ?_
    rcases List.mem_append.mp hx with hx | hx
    · exact .inl (htext line List.mem_cons_self x hx)
    · obtain ⟨l, hl, hx⟩ := List.mem_flatMap.mp hx
      rcases List.mem_cons.mp hx with rfl | hx
      · exact .inr (by decide)
      rcases List.mem_cons.mp hx with rfl | hx
      · exact .inr (by decide)
      · exact .inl (htext l (List.mem_cons_of_mem line hl) x hx)
  have hrun : Yields (t₀.execute (t₀.decoder.bytes (textBytes line lines)).2)
      (ShowsRows rows cols limit ((line :: lines).flatMap (wrapped cols))) := by
    rw [hbytes, textActions htext, execute_append, List.flatMap_cons]
    refine (hshows.printLine hrows hcols line).bind fun t₁ h₁ => ?_
    rw [List.nil_append] at h₁
    exact h₁.lines hrows hcols lines
  obtain ⟨t, ht, hrows'⟩ := hrun
  rw [← ht₀, feedChunks_eq, hchunks, feed_of_execute ht]
  exact ⟨_, rfl, { hrows'.transcript hrows with }⟩

/-- A screen of one row and two columns, and two lines of which the first has to be wrapped. -/
theorem feed_transcript_wrapped :
    ∃ t, ((Terminal.new 1 2).setScrollbackLimit 1).feedChunks
        [[0x61, 0x62], [0x63, 0x0D], [0x0A, 0x64]] = some t ∧
      Transcript 1 2 1 ([[0x61, 0x62, 0x63], [0x64]].flatMap (wrapped 2)) t := by
  refine @feed_transcript 1 2 (by decide) (by decide) 1 [0x61, 0x62, 0x63] [[0x64]]
    (fun l hl x hx => ?_) _ rfl
  have hmem : x = 0x61 ∨ x = 0x62 ∨ x = 0x63 ∨ x = 0x64 := by
    simp only [List.mem_cons, List.not_mem_nil, or_false] at hl
    rcases hl with rfl | rfl <;>
      simp only [List.mem_cons, List.not_mem_nil, or_false] at hx <;> tauto
  rcases hmem with rfl | rfl | rfl | rfl <;> exact ⟨by decide, by decide⟩

end Terminal

end RacOS.RacTerm
