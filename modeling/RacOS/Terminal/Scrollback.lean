import RacOS.Terminal.Decoder

/-!
# The scrollback and the hidden screen

What actions do to the parts of the buffer that are not on the screen.  No operation of the buffer
but a scroll up adds to the scrollback, and while the alternate grid is active none of them reaches
the primary grid.

A scroll up adds rows whenever its region starts at the first row.  So the scrollback is the log of
the rows that scrolled out of the whole screen, provided that no lines are deleted from the first
row on and no part of the screen is scrolled that starts there.  The alternate screen gives back
the primary one as it was, provided that nothing in between saves the cursor position.
-/

namespace RacOS.RacTerm

open Total

/-! ## What the operations of the buffer leave alone -/

namespace ScreenBuffer

variable {b b' b'' : ScreenBuffer}

/-- `b'` has the dimensions and the scrollback of `b`, and the primary grid if it is hidden. -/
structure Keeps (b b' : ScreenBuffer) : Prop where
  rows : b'.rows = b.rows
  cols : b'.cols = b.cols
  usingAlternate : b'.usingAlternate = b.usingAlternate
  scrollback : b'.scrollback = b.scrollback
  scrollbackLimit : b'.scrollbackLimit = b.scrollbackLimit
  primary : b.usingAlternate = true → b'.primary = b.primary

namespace Keeps

theorem refl (b : ScreenBuffer) : b.Keeps b := ⟨rfl, rfl, rfl, rfl, rfl, fun _ => rfl⟩

theorem trans (h : b.Keeps b') (h' : b'.Keeps b'') : b.Keeps b'' where
  rows := h'.rows.trans h.rows
  cols := h'.cols.trans h.cols
  usingAlternate := h'.usingAlternate.trans h.usingAlternate
  scrollback := h'.scrollback.trans h.scrollback
  scrollbackLimit := h'.scrollbackLimit.trans h.scrollbackLimit
  primary := fun halt => (h'.primary (h.usingAlternate.trans halt)).trans (h.primary halt)

instance : Std.Refl Keeps := ⟨refl⟩

instance : IsTrans ScreenBuffer Keeps := ⟨fun _ _ _ => trans⟩

variable (b) (row col n : ℕ)

theorem withGrid (grid : List Cell) : b.Keeps (b.withGrid grid) := by
  unfold ScreenBuffer.withGrid
  split
  · exact ⟨rfl, rfl, rfl, rfl, rfl, fun _ => rfl⟩
  · rename_i halt
    exact ⟨rfl, rfl, rfl, rfl, rfl, fun h => absurd h halt⟩

theorem write (i : ℕ) (cell : Cell) : Ensures (b.write i cell) b.Keeps :=
  .after fun grid => .pure (withGrid b grid)

theorem copy (dst src : ℕ) : Ensures (b.copy dst src) b.Keeps :=
  .after fun cell => write b dst cell

theorem markDirty : Ensures (b.markDirty row) b.Keeps :=
  .after fun _ => .pure ⟨rfl, rfl, rfl, rfl, rfl, fun _ => rfl⟩

theorem markAllDirty : b.Keeps b.markAllDirty :=
  ⟨rfl, rfl, rfl, rfl, rfl, fun _ => rfl⟩

theorem set (cell : Cell) : Ensures (b.set row col cell) b.Keeps :=
  .seq (write b _ cell) fun b' => markDirty b' row

theorem putChar (character : Char) (fg bg : Color)
    (attrs : CellAttrs) : Ensures (b.putChar row col character fg bg attrs) b.Keeps :=
  .ite (fun _ => set b row col _) fun _ => .pure (refl b)

theorem blankGrid : Ensures b.blankGrid b.Keeps :=
  .loop_rel fun b' i => write b' i {}

theorem blankRow : Ensures (b.blankRow row) b.Keeps :=
  .loop_rel fun b' _ => write b' _ {}

theorem clear : Ensures b.clear b.Keeps :=
  .seq (blankGrid b) fun b' => .pure (markAllDirty b')

theorem clearRow : Ensures (b.clearRow row) b.Keeps :=
  .seq (blankRow b row) fun b' => markDirty b' row

theorem clearBelow : Ensures (b.clearBelow row col) b.Keeps :=
  .seq (.loop_rel fun b' c => set b' row c {}) fun _ => .loop_rel clearRow

theorem clearAbove : Ensures (b.clearAbove row col) b.Keeps :=
  .seq (.loop_rel clearRow) fun _ => .after fun _ => .loop_rel fun b' c => set b' row c {}

theorem writeColumns (lo hi : ℕ) :
    Ensures (loop lo hi (fun b c => b.write (row * b.cols + c) {}) b) b.Keeps :=
  .loop_rel fun b' _ => write b' _ {}

theorem clearLine (lo hi : ℕ) : Ensures (b.clearLine row lo hi) b.Keeps :=
  .ite (fun _ => .seq (writeColumns b row lo _) fun b' => markDirty b' row) fun _ =>
    .pure (refl b)

theorem copyRow (dst src : ℕ) : Ensures (b.copyRow dst src) b.Keeps :=
  .loop_rel fun b' _ => copy b' _ _

theorem scrollDown (top bottom : ℕ) :
    Ensures (b.scrollDown n top bottom) b.Keeps := by
  refine .after fun last => .ite (fun _ => .pure (refl b)) fun _ => ?_
  refine .seq (.loopDown_rel fun b' r => copyRow b' r _) fun b' => ?_
  exact .seq (.loop_rel blankRow) fun b'' => .loop_rel markDirty

theorem insertLines (bottom : ℕ) :
    Ensures (b.insertLines row n bottom) b.Keeps :=
  .ite (fun _ => scrollDown b n row bottom) fun _ => .pure (refl b)

theorem insertChars :
    Ensures (b.insertChars row col n) b.Keeps := by
  refine .ite (fun _ => .pure (refl b)) fun _ => ?_
  refine .seq (.loopDown_rel fun b' c => copy b' _ _) fun b' => ?_
  exact .seq (writeColumns b' row col _) fun b'' => markDirty b'' row

theorem deleteChars :
    Ensures (b.deleteChars row col n) b.Keeps := by
  refine .ite (fun _ => .pure (refl b)) fun _ => ?_
  refine .seq (.loop_rel fun b' c => ?_) fun b' => markDirty b' row
  exact .ite (fun _ => copy b' _ _) fun _ => write b' _ {}

theorem eraseChars : Ensures (b.eraseChars row col n) b.Keeps :=
  .ite (fun _ => .pure (refl b)) fun _ =>
    .seq (writeColumns b row col _) fun b' => markDirty b' row

end Keeps

/-! ## What a scroll adds to the scrollback -/

/-- A row of the primary grid. -/
def primaryRow (b : ScreenBuffer) (i : ℕ) : List Cell := (b.primary.drop (i * b.cols)).take b.cols

/-- Add a row to a scrollback that holds at most `limit` rows. -/
def retain (limit : ℕ) (scrollback : List (List Cell)) (row : List Cell) : List (List Cell) :=
  if limit < (scrollback ++ [row]).length then (scrollback ++ [row]).tail else scrollback ++ [row]

/-- A scrollback after some more rows; a limit of zero turns it off. -/
def retained (limit : ℕ) (scrollback rows : List (List Cell)) : List (List Cell) :=
  if 0 < limit then rows.foldl (retain limit) scrollback else scrollback

/-- The buffer after some rows have left the screen; only the primary grid has a scrollback. -/
def log (b : ScreenBuffer) (rows : List (List Cell)) : ScreenBuffer :=
  { b with
    scrollback := if b.usingAlternate then b.scrollback
      else retained b.scrollbackLimit b.scrollback rows }

/-- The rows that a scroll up of a region puts into the scrollback. -/
def leaving (b : ScreenBuffer) (n top bottom : ℕ) : List (List Cell) :=
  if top = 0 then (List.range (min n bottom)).map b.primaryRow else []

theorem retained_nil (limit : ℕ) (scrollback : List (List Cell)) :
    retained limit scrollback [] = scrollback := by
  unfold retained
  rw [List.foldl_nil, ite_self]

theorem retained_append (limit : ℕ) (scrollback rows rows' : List (List Cell)) :
    retained limit scrollback (rows ++ rows') =
      retained limit (retained limit scrollback rows) rows' := by
  unfold retained
  split
  · exact List.foldl_append
  · rfl

theorem log_nil (b : ScreenBuffer) : b.log [] = b := by
  unfold log
  rw [retained_nil, ite_self]

theorem leaving_zero (b : ScreenBuffer) (top bottom : ℕ) : b.leaving 0 top bottom = [] := by
  unfold leaving
  rw [Nat.zero_min]
  exact ite_self _

theorem saveRow_foldlM (b : ScreenBuffer) (is : List ℕ) :
    Ensures (is.foldlM saveRow b) fun b' => b' =
      { b with
        scrollback := (is.map b.primaryRow).foldl (retain b.scrollbackLimit) b.scrollback } := by
  induction is generalizing b with
  | nil => exact .pure rfl
  | cons i is ih =>
    rw [List.foldlM_cons]
    refine .bind (P := fun b' => b' =
      { b with scrollback := retain b.scrollbackLimit b.scrollback (b.primaryRow i) }) ?_ ?_
    · refine .ite (fun _ => .pure rfl) fun _ b' hb' => ?_
      cases hb'
    · rintro b' rfl
      exact ih _

theorem saveScrolled_log (b : ScreenBuffer) (n top : ℕ) :
    Ensures (b.saveScrolled n top) fun b' =>
      b' = b.log (if top = 0 then (List.range n).map b.primaryRow else []) := by
  refine .ite (fun hsave => ?_) fun hsave => .pure ?_
  · obtain ⟨halt, htop, hlimit⟩ := hsave
    refine (saveRow_foldlM b (List.range' 0 n)).mono ?_
    rintro b' rfl
    unfold log
    unfold retained
    rw [if_pos htop, halt, if_neg Bool.false_ne_true, if_pos hlimit, List.range_eq_range']
  · by_cases htop : top = 0
    · unfold log retained
      split
      · rfl
      · rename_i halt
        rw [if_neg fun hlimit => hsave ⟨Bool.not_eq_true _ ▸ halt, htop, hlimit⟩]
    · rw [if_neg htop, log_nil]

/-- What a scroll up leaves alone, and what it adds to the scrollback. -/
theorem scrollUp_log (b : ScreenBuffer) (n : ℕ) {top bottom : ℕ} (htop : top < b.rows)
    (hbottom : bottom ≤ b.rows) :
    Ensures (b.scrollUp n top bottom) (b.log (b.leaving n top bottom)).Keeps := by
  unfold scrollUp
  rw [checkedSub_eq (by omega)]
  change Ensures (if min bottom b.rows ≤ min top (b.rows - 1) then some b else _) _
  rw [Nat.min_eq_left hbottom, Nat.min_eq_left (Nat.le_sub_one_of_lt htop)]
  refine .ite (fun hle => .pure ?_) fun hlt => ?_
  · have hnil : b.leaving n top bottom = [] := by
      unfold leaving
      split
      · obtain rfl : bottom = 0 := by omega
        rw [Nat.min_zero]
        rfl
      · rfl
    rw [hnil, log_nil]
    exact .refl b
  · refine (saveScrolled_log b _ top).bind ?_
    have hrows : (if top = 0 then (List.range (min n (bottom - top))).map b.primaryRow else []) =
        b.leaving n top bottom := by
      unfold leaving
      split
      · subst top
        rfl
      · rfl
    rintro b' rfl
    rw [hrows]
    refine .seq (.loop_rel fun b' r => .copyRow b' r _) fun b' => ?_
    exact .seq (.loop_rel .blankRow) fun b'' => .loop_rel .markDirty

/-- Only the primary screen has a scrollback. -/
theorem log_of_usingAlternate (h : b.usingAlternate = true) (rows : List (List Cell)) :
    b.log rows = b := by
  unfold log
  rw [if_pos h]

end ScreenBuffer

/-! ## What actions add to the scrollback -/

namespace Terminal

variable {t t' : Terminal}

/-- The lines by which a line feed scrolls the region. -/
def feedLines (t : Terminal) : ℕ := if t.cursor.scrollBottom ≤ t.cursor.row + 1 then 1 else 0

/-- The lines by which an action scrolls the region up: a character after the last column, a line
feed or index, and the sequence for it. -/
def scrolledLines (t : Terminal) : Action → ℕ
  | .print _ => if t.cursor.wrapPending then t.feedLines else 0
  | .execute byte => if byte = 0x0A ∨ byte = 0x0B ∨ byte = 0x0C then t.feedLines else 0
  | .csiDispatch params _ finalByte false =>
    if charOf finalByte = 'S' then max (params.headD 0) 1 else 0
  | .escDispatch byte => if charOf byte = 'D' ∨ charOf byte = 'E' then t.feedLines else 0
  | _ => 0

/-- The lines that an action deletes at the cursor. -/
def deletedLines : Action → ℕ
  | .csiDispatch params _ finalByte false =>
    if charOf finalByte = 'M' then max (params.headD 0) 1 else 0
  | _ => 0

/-- The rows that the buffer saves during an action. -/
def leaving (t : Terminal) (action : Action) : List (List Cell) :=
  t.buffer.leaving (t.scrolledLines action) t.cursor.scrollTop t.cursor.scrollBottom ++
    t.buffer.leaving (deletedLines action) t.cursor.row t.cursor.scrollBottom

/-- `t'` keeps what `t` has, after some rows have left the screen. -/
def Logs (t : Terminal) (rows : List (List Cell)) (t' : Terminal) : Prop :=
  (t.buffer.log rows).Keeps t'.buffer

theorem Logs.same (h : t'.buffer = t.buffer) : t.Logs [] t' := by
  unfold Logs
  rw [ScreenBuffer.log_nil, h]
  exact .refl t.buffer

theorem Logs.onBuffer {f : ScreenBuffer → Option ScreenBuffer}
    (hf : Ensures (f t.buffer) t.buffer.Keeps) : Ensures (t.onBuffer f) (t.Logs []) := by
  refine hf.bind fun b hb => .pure ?_
  unfold Logs
  rwa [ScreenBuffer.log_nil]

theorem Logs.onCursor (f : Cursor → Option Cursor) : Ensures (t.onCursor f) (t.Logs []) :=
  .after fun _ => .pure (Logs.same rfl)

theorem lineFeed_scrollTop (c : Cursor) :
    c.lineFeed.2.scrollTop = c.scrollTop ∧ c.lineFeed.2.scrollBottom = c.scrollBottom := by
  unfold Cursor.lineFeed
  dsimp only
  split <;> exact ⟨rfl, rfl⟩

/-- A line feed of a cursor in the row and the region of the terminal's. -/
theorem scrollAfter_logs (h : t.Valid) {c : Cursor} (hrow : c.row = t.cursor.row)
    (htop : c.scrollTop = t.cursor.scrollTop) (hbottom : c.scrollBottom = t.cursor.scrollBottom) :
    Ensures (t.scrollAfter c.lineFeed ScreenBuffer.scrollUp)
      (t.Logs (t.buffer.leaving t.feedLines t.cursor.scrollTop t.cursor.scrollBottom)) := by
  obtain ⟨htop', hbottom'⟩ := lineFeed_scrollTop c
  have hinside := h.inside
  unfold scrollAfter feedLines
  dsimp only
  rw [← hrow, ← htop, ← hbottom]
  by_cases hscroll : c.scrollBottom ≤ c.row + 1
  · have hmoved : c.lineFeed.1 = true := by
      unfold Cursor.lineFeed
      dsimp only
      rw [if_pos hscroll]
    rw [if_pos hmoved, if_pos hscroll, htop', hbottom']
    refine Ensures.bind ?_ fun b hb => .pure hb
    have hlt := hinside.scrollTop
    have hle := hinside.scrollBottom
    exact ScreenBuffer.scrollUp_log t.buffer 1 (by omega) (by omega)
  · have hmoved : ¬ c.lineFeed.1 = true := by
      unfold Cursor.lineFeed
      dsimp only
      rw [if_neg hscroll]
      exact Bool.noConfusion
    rw [if_neg hmoved, if_neg hscroll, ScreenBuffer.leaving_zero]
    exact .pure (Logs.same rfl)

theorem lineFeed_logs (h : t.Valid) :
    Ensures t.lineFeed
      (t.Logs (t.buffer.leaving t.feedLines t.cursor.scrollTop t.cursor.scrollBottom)) :=
  scrollAfter_logs h rfl rfl rfl

variable {action : Action}

theorem leaving_of_deletedLines (h : deletedLines action = 0) :
    t.leaving action = t.buffer.leaving (t.scrolledLines action) t.cursor.scrollTop
      t.cursor.scrollBottom := by
  unfold leaving
  rw [h, ScreenBuffer.leaving_zero, List.append_nil]

theorem leaving_eq_nil (h : t.scrolledLines action = 0) (h' : deletedLines action = 0) :
    t.leaving action = [] := by
  rw [leaving_of_deletedLines h', h, ScreenBuffer.leaving_zero]

theorem print_logs (h : t.Valid) (ch : Char) :
    Ensures (t.print ch) (t.Logs (t.leaving (.print ch))) := by
  have hwrap : Ensures t.wrap (t.Logs (t.leaving (.print ch))) := by
    unfold wrap
    by_cases hpending : t.cursor.wrapPending = true
    · have hlines : t.scrolledLines (.print ch) = t.feedLines := if_pos hpending
      rw [if_pos hpending, leaving_of_deletedLines rfl, hlines]
      exact scrollAfter_logs (c := { t.cursor with wrapPending := false, col := 0 }) h rfl rfl rfl
    · have hnil : t.leaving (.print ch) = [] := leaving_eq_nil (if_neg hpending) rfl
      rw [if_neg hpending, hnil]
      exact .pure (Logs.same rfl)
  refine hwrap.bind fun t₁ h₁ => ?_
  have hput : Ensures (t₁.onBuffer fun b =>
      b.putChar t₁.cursor.row t₁.cursor.col ch t₁.style.fg t₁.style.bg t₁.style.attrs)
      fun t₂ => t₁.buffer.Keeps t₂.buffer :=
    (ScreenBuffer.Keeps.putChar t₁.buffer _ _ _ _ _ _).bind fun b hb => .pure hb
  exact hput.bind fun t₂ h₂ => .pure (h₁.trans h₂)

theorem executeControl_logs (h : t.Valid) (byte : UInt8) :
    Ensures (t.executeControl byte) (t.Logs (t.leaving (.execute byte))) := by
  unfold executeControl
  by_cases hfeed : byte = 0x0A ∨ byte = 0x0B ∨ byte = 0x0C
  · have hlines : t.scrolledLines (.execute byte) = t.feedLines := if_pos hfeed
    rw [if_neg (by rintro rfl; revert hfeed; decide),
      if_neg (by rintro rfl; revert hfeed; decide), if_pos hfeed, leaving_of_deletedLines rfl,
      hlines]
    exact lineFeed_logs h
  · have hnil : t.leaving (.execute byte) = [] := leaving_eq_nil (if_neg hfeed) rfl
    rw [if_neg hfeed, hnil]
    refine .ite (fun _ => .pure (Logs.same rfl)) fun _ => ?_
    refine .ite (fun _ => Logs.onCursor _) fun _ => ?_
    exact .ite (fun _ => .pure (Logs.same rfl)) fun _ => .pure (Logs.same rfl)

theorem eraseDisplay_logs (p : ℕ) : Ensures (t.eraseDisplay p) (t.Logs []) := by
  unfold eraseDisplay
  split
  · exact Logs.onBuffer (.clearBelow t.buffer _ _)
  · exact Logs.onBuffer (.clearAbove t.buffer _ _)
  · exact Logs.onBuffer (.clear t.buffer)
  · exact Logs.onBuffer (.clear t.buffer)
  · exact .pure (Logs.same rfl)

theorem eraseLine_logs (p : ℕ) : Ensures (t.eraseLine p) (t.Logs []) := by
  unfold eraseLine
  split
  · exact Logs.onBuffer (.clearLine t.buffer _ _ _)
  · exact Logs.onBuffer (.clearLine t.buffer _ _ _)
  · exact Logs.onBuffer (.clearLine t.buffer _ _ _)
  · exact .pure (Logs.same rfl)

theorem reportStatus_logs (p : ℕ) : Ensures (t.reportStatus p) (t.Logs []) := by
  unfold reportStatus
  split
  · exact .after fun _ => .pure (Logs.same rfl)
  · exact .pure (Logs.same rfl)
  · exact .pure (Logs.same rfl)

/-- Of the sequences, only two scroll up. -/
theorem executeCsi_keeps (params : List ℕ) {finalByte : UInt8} (hS : charOf finalByte ≠ 'S')
    (hM : charOf finalByte ≠ 'M') : Ensures (t.executeCsi params finalByte false) (t.Logs []) := by
  unfold executeCsi
  rw [if_neg Bool.false_ne_true]
  dsimp only
  split
  case h_2 | h_3 | h_5 | h_6 | h_7 | h_21 => exact Logs.onCursor _
  case h_8 => exact eraseDisplay_logs _
  case h_9 => exact eraseLine_logs _
  case h_10 => exact Logs.onBuffer (.insertLines t.buffer _ _ _)
  case h_11 hfinal => exact absurd hfinal hM
  case h_12 hfinal => exact absurd hfinal hS
  case h_13 => exact Logs.onBuffer (.scrollDown t.buffer _ _ _)
  case h_14 => exact .after fun _ => .pure (Logs.same rfl)
  case h_15 => exact reportStatus_logs _
  case h_16 => exact .ite (fun _ => .pure (Logs.same rfl)) fun _ => .pure (Logs.same rfl)
  case h_17 => exact Logs.onBuffer (.insertChars t.buffer _ _ _)
  case h_18 => exact Logs.onBuffer (.deleteChars t.buffer _ _ _)
  case h_19 => exact Logs.onBuffer (.eraseChars t.buffer _ _ _)
  all_goals exact .pure (Logs.same rfl)

theorem executeCsi_logs (h : t.Valid) (params : List ℕ) (intermediates : List UInt8)
    (finalByte : UInt8) :
    Ensures (t.executeCsi params finalByte false)
      (t.Logs (t.leaving (.csiDispatch params intermediates finalByte false))) := by
  have hinside := h.inside
  have htop : t.cursor.scrollTop < t.buffer.rows :=
    Nat.lt_of_lt_of_le hinside.scrollTop hinside.scrollBottom
  by_cases hS : charOf finalByte = 'S'
  · have hlines : t.scrolledLines (.csiDispatch params intermediates finalByte false) =
        max (params.headD 0) 1 := if_pos hS
    have hdeleted : deletedLines (.csiDispatch params intermediates finalByte false) = 0 :=
      if_neg (by rw [hS]; decide)
    rw [leaving_of_deletedLines hdeleted, hlines]
    unfold executeCsi
    rw [if_neg Bool.false_ne_true, hS]
    refine Ensures.bind ?_ fun b hb => .pure hb
    exact ScreenBuffer.scrollUp_log t.buffer _ htop hinside.scrollBottom
  by_cases hM : charOf finalByte = 'M'
  · have hlines : t.scrolledLines (.csiDispatch params intermediates finalByte false) = 0 :=
      if_neg hS
    have hdeleted : deletedLines (.csiDispatch params intermediates finalByte false) =
        max (params.headD 0) 1 := if_pos hM
    unfold leaving
    rw [hlines, ScreenBuffer.leaving_zero, List.nil_append, hdeleted]
    unfold executeCsi
    rw [if_neg Bool.false_ne_true, hM]
    refine Ensures.bind (.ite (fun hlt => ?_) fun hle => .pure ?_) fun b hb => .pure hb
    · exact ScreenBuffer.scrollUp_log t.buffer _ hinside.row hinside.scrollBottom
    · -- below the region there is nothing to delete
      have hnil : t.buffer.leaving (max (params.headD 0) 1) t.cursor.row t.cursor.scrollBottom =
          [] := by
        unfold ScreenBuffer.leaving
        rw [if_neg (by have := hinside.scrollTop; omega)]
      rw [hnil]
      exact Logs.same rfl
  · have hnil : t.leaving (.csiDispatch params intermediates finalByte false) = [] :=
      leaving_eq_nil (if_neg hS) (if_neg hM)
    rw [hnil]
    exact executeCsi_keeps params hS hM

theorem executeEsc_logs (h : t.Valid) (byte : UInt8) :
    Ensures (t.executeEsc byte) (t.Logs (t.leaving (.escDispatch byte))) := by
  by_cases hfeed : charOf byte = 'D' ∨ charOf byte = 'E'
  · have hlines : t.scrolledLines (.escDispatch byte) = t.feedLines := if_pos hfeed
    rw [leaving_of_deletedLines rfl, hlines]
    unfold executeEsc
    rcases hfeed with hD | hE
    · rw [hD]
      exact lineFeed_logs h
    · rw [hE]
      exact scrollAfter_logs (c := t.cursor.carriageReturn) h rfl rfl rfl
  · have hnil : t.leaving (.escDispatch byte) = [] := leaving_eq_nil (if_neg hfeed) rfl
    rw [hnil]
    unfold executeEsc
    split
    case h_1 =>
      refine (Logs.onBuffer (.clear t.buffer)).bind fun t' ht' => .pure ?_
      exact ht'
    case h_3 => exact Logs.onCursor _
    case h_4 hD => exact absurd (.inl hD) hfeed
    case h_5 hE => exact absurd (.inr hE) hfeed
    case h_6 =>
      refine .ite (fun _ => ?_) fun _ => .pure (Logs.same rfl)
      exact Logs.onBuffer (t := { t with cursor := t.cursor.reverseIndex.2 })
        (.scrollDown t.buffer _ _ _)
    all_goals exact .pure (Logs.same rfl)

/-- The switch to the alternate screen, with a final `h`, or back, with a final `l`. -/
def Switches (final : Char) (action : Action) : Prop :=
  ∃ params intermediates finalByte, action = .csiDispatch params intermediates finalByte true ∧
    params.headD 0 = 1049 ∧ charOf finalByte = final

/-- What an action leaves alone, and what it adds to the scrollback. -/
theorem executeAction_logs (h : t.Valid) (henable : ¬ Switches 'h' action)
    (hdisable : ¬ Switches 'l' action) :
    Ensures (t.executeAction action) (t.Logs (t.leaving action)) := by
  cases action with
  | print ch => exact print_logs h ch
  | execute byte => exact executeControl_logs h byte
  | csiDispatch params intermediates finalByte isPrivate =>
    cases isPrivate with
    | false => exact executeCsi_logs h params intermediates finalByte
    | true =>
      rw [leaving_eq_nil rfl rfl]
      change Ensures (t.executeCsiPrivate params finalByte) (t.Logs [])
      unfold executeCsiPrivate
      split
      case h_3 hp hc => exact absurd ⟨_, _, _, rfl, hp, hc⟩ henable
      case h_4 hp hc => exact absurd ⟨_, _, _, rfl, hp, hc⟩ hdisable
      all_goals exact .pure (Logs.same rfl)
  | oscDispatch s =>
    rw [leaving_eq_nil rfl rfl]
    exact .pure (Logs.same rfl)
  | escDispatch byte => exact executeEsc_logs h byte

theorem enableAlternate_keeps (b : ScreenBuffer) :
    Ensures b.enableAlternate { b with usingAlternate := true }.Keeps := by
  refine .ite (fun halt => .pure ?_) fun _ => ?_
  · rw [← halt]
    exact .refl b
  · exact .seq (.blankGrid _) fun b' => .pure (.markAllDirty b')

theorem disableAlternate_keeps (b : ScreenBuffer) :
    { b with usingAlternate := false }.Keeps b.disableAlternate := by
  unfold ScreenBuffer.disableAlternate
  split
  · exact .markAllDirty _
  · rename_i halt
    rw [← (Bool.not_eq_true _).mp halt]
    exact .refl b

theorem Switches.enable (h : Switches 'h' action) :
    t.executeAction action =
      { t with cursor := t.cursor.save }.onBuffer ScreenBuffer.enableAlternate := by
  obtain ⟨params, intermediates, finalByte, rfl, hparam, hfinal⟩ := h
  change t.executeCsiPrivate params finalByte = _
  unfold executeCsiPrivate
  rw [hparam, hfinal]
  rfl

theorem Switches.disable (h : Switches 'l' action) :
    t.executeAction action =
      { t with buffer := t.buffer.disableAlternate }.onCursor Cursor.restore := by
  obtain ⟨params, intermediates, finalByte, rfl, hparam, hfinal⟩ := h
  change t.executeCsiPrivate params finalByte = _
  unfold executeCsiPrivate
  rw [hparam, hfinal]
  rfl

/-! ## The scrollback is a log -/

/-- The rows that leave the top of the screen during an action by a scroll of the whole screen. -/
def departing (t : Terminal) (action : Action) : List (List Cell) :=
  if t.buffer.usingAlternate = false ∧ t.cursor.scrollTop = 0 ∧
      t.cursor.scrollBottom = t.buffer.rows then
    (List.range (min (t.scrolledLines action) t.buffer.rows)).map t.buffer.primaryRow
  else []

/-- The rows that leave the screen during actions, in their order. -/
def departed : Terminal → List Action → List (List Cell)
  | _, [] => []
  | t, action :: actions =>
    t.departing action ++ ((t.executeAction action).map fun t' => t'.departed actions).getD []

/-- The action saves rows that do not scroll out of the whole screen: it deletes lines from the
first row on, or scrolls a region that starts there and ends above the last row. -/
def Spills (t : Terminal) (action : Action) : Prop :=
  t.buffer.usingAlternate = false ∧ 0 < t.buffer.scrollbackLimit ∧
    (0 < deletedLines action ∧ t.cursor.row = 0 ∨
      0 < t.scrolledLines action ∧ t.cursor.scrollTop = 0 ∧ t.cursor.scrollBottom < t.buffer.rows)

/-- No action of a run spills. -/
def Spotless : Terminal → List Action → Prop
  | _, [] => True
  | t, action :: actions =>
    ¬ t.Spills action ∧ ∀ t', t.executeAction action = some t' → t'.Spotless actions

/-- Without a spill, what the buffer saves is what departs. -/
theorem log_leaving (h : t.Valid) (hspill : ¬ t.Spills action) :
    (t.buffer.log (t.leaving action)).scrollback =
      ScreenBuffer.retained t.buffer.scrollbackLimit t.buffer.scrollback (t.departing action) := by
  have hbottom := h.inside.scrollBottom
  unfold ScreenBuffer.log
  dsimp only
  cases halt : t.buffer.usingAlternate with
  | true =>
    have hnil : t.departing action = [] := by
      unfold departing
      rw [halt, if_neg fun hsave => absurd hsave.1 Bool.noConfusion]
    rw [hnil, ScreenBuffer.retained_nil]
    rfl
  | false =>
    rw [if_neg Bool.false_ne_true]
    by_cases hlimit : 0 < t.buffer.scrollbackLimit
    · congr 1
      have hdeleted : t.buffer.leaving (deletedLines action) t.cursor.row
          t.cursor.scrollBottom = [] := by
        rcases Nat.eq_zero_or_pos (deletedLines action) with hzero | hpos
        · rw [hzero, ScreenBuffer.leaving_zero]
        · exact if_neg fun hrow => hspill ⟨halt, hlimit, .inl ⟨hpos, hrow⟩⟩
      unfold leaving departing
      rw [hdeleted, List.append_nil]
      rcases Nat.eq_zero_or_pos (t.scrolledLines action) with hzero | hpos
      · rw [hzero, ScreenBuffer.leaving_zero, Nat.zero_min]
        exact (ite_self _).symm
      · unfold ScreenBuffer.leaving
        by_cases htop : t.cursor.scrollTop = 0
        · have hwhole : t.cursor.scrollBottom = t.buffer.rows := by
            refine Nat.le_antisymm hbottom (Nat.not_lt.mp fun hlt => ?_)
            exact hspill ⟨halt, hlimit, .inr ⟨hpos, htop, hlt⟩⟩
          rw [if_pos htop, if_pos ⟨halt, htop, hwhole⟩, hwhole]
        · rw [if_neg htop, if_neg fun hsave => htop hsave.2.1]
    · unfold ScreenBuffer.retained
      rw [if_neg hlimit, if_neg hlimit]

theorem executeAction_scrollback (h : t.Valid) (hspill : ¬ t.Spills action) :
    Ensures (t.executeAction action) fun t' =>
      t'.buffer.scrollbackLimit = t.buffer.scrollbackLimit ∧
      t'.buffer.scrollback = ScreenBuffer.retained t.buffer.scrollbackLimit t.buffer.scrollback
        (t.departing action) := by
  have hswitch : ∀ {final : Char}, Switches final action → t.departing action = [] := by
    rintro final ⟨params, intermediates, finalByte, rfl, -⟩
    unfold departing
    rw [show t.scrolledLines (.csiDispatch params intermediates finalByte true) = 0 from rfl,
      Nat.zero_min]
    exact ite_self _
  by_cases henable : Switches 'h' action
  · rw [henable.enable, hswitch henable, ScreenBuffer.retained_nil]
    refine (enableAlternate_keeps t.buffer).bind fun b hb => .pure ?_
    exact ⟨hb.scrollbackLimit, hb.scrollback⟩
  by_cases hdisable : Switches 'l' action
  · rw [hdisable.disable, hswitch hdisable, ScreenBuffer.retained_nil]
    have hkeeps := disableAlternate_keeps t.buffer
    exact .after fun c => .pure ⟨hkeeps.scrollbackLimit, hkeeps.scrollback⟩
  · refine (executeAction_logs h henable hdisable).mono fun t' ht' => ⟨ht'.scrollbackLimit, ?_⟩
    exact ht'.scrollback.trans (log_leaving h hspill)

theorem execute_scrollback (h : t.Valid) {actions : List Action} (hclean : t.Spotless actions) :
    Yields (t.execute actions) fun t' =>
      t'.buffer.scrollback = ScreenBuffer.retained t.buffer.scrollbackLimit t.buffer.scrollback
        (t.departed actions) := by
  induction actions generalizing t with
  | nil => exact .pure (ScreenBuffer.retained_nil _ _).symm
  | cons action actions ih =>
    obtain ⟨hspill, hrest⟩ := hclean
    obtain ⟨t', ht', hadvances, hlimit, hscrollback⟩ :=
      (executeAction_advances h action).and (executeAction_scrollback h hspill)
    obtain ⟨t'', ht'', hlast⟩ := ih hadvances.valid (hrest t' ht')
    refine ⟨t'', ?_, ?_⟩
    · unfold execute
      rw [List.foldlM_cons, ht']
      exact ht''
    · unfold departed
      rw [ht', ScreenBuffer.retained_append, ← hscrollback, ← hlimit]
      exact hlast

/-- **The scrollback is a log.**  It is what it was before, followed by the rows that left the top
of the screen by a scroll of the whole screen, in their order and as many as it holds. -/
theorem scrollback_of_feed (h : t.Valid) {data : List UInt8}
    (hclean : t.Spotless (t.decoder.bytes data).2) :
    ∃ t', t.feed data = some t' ∧
      t'.buffer.scrollback = ScreenBuffer.retained t.buffer.scrollbackLimit t.buffer.scrollback
        (t.departed (t.decoder.bytes data).2) := by
  obtain ⟨t', ht', hscrollback⟩ := execute_scrollback h hclean
  exact ⟨_, feed_of_execute ht', hscrollback⟩

/-- A screen of one cell that a line feed scrolls after a letter. -/
theorem scrollback_of_feed_letter :
    ∃ t', (Terminal.new 1 1).feed [0x61, 0x0A] = some t' ∧
      t'.buffer.scrollback = ScreenBuffer.retained 10000 []
        ((Terminal.new 1 1).departed [.print 'a', .execute 0x0A]) := by
  refine @scrollback_of_feed (Terminal.new 1 1)
    (new_valid (by decide) (by decide) (by decide) (by decide)) [0x61, 0x0A] ⟨?_, ?_⟩
  · rintro ⟨-, -, ⟨h, -⟩ | ⟨-, -, h⟩⟩ <;> exact absurd h (by decide)
  · intro t' ht'
    obtain rfl := Option.some.inj ht'
    refine ⟨?_, fun _ _ => trivial⟩
    rintro ⟨-, -, ⟨h, -⟩ | ⟨-, -, h⟩⟩ <;> exact absurd h (by decide)

/-- A line that is deleted in the first row goes to the scrollback. -/
theorem scrollback_ne_of_deleteLines :
    ∃ t', (Terminal.new 2 1).feed [0x1B, 0x5B, 0x4D] = some t' ∧
      t'.buffer.scrollback ≠ ScreenBuffer.retained 10000 []
        ((Terminal.new 2 1).departed ((Terminal.new 2 1).decoder.bytes [0x1B, 0x5B, 0x4D]).2) :=
  ⟨_, rfl, by decide⟩

/-! ## The saved cursor position -/

/-- The saved position of `t'` is that of `t`. -/
structure SameSaved (t t' : Terminal) : Prop where
  row : t'.cursor.savedRow = t.cursor.savedRow
  col : t'.cursor.savedCol = t.cursor.savedCol

theorem SameSaved.same (h : t'.cursor = t.cursor) : t.SameSaved t' := by
  constructor <;> rw [h]

theorem SameSaved.onBuffer (f : ScreenBuffer → Option ScreenBuffer) :
    Ensures (t.onBuffer f) t.SameSaved :=
  .after fun _ => .pure ⟨rfl, rfl⟩

/-- Moving a cursor does not change the position that it has saved. -/
theorem SameSaved.onCursor {f : Cursor → Option Cursor} (hf : Ensures (f t.cursor) fun c =>
      c.savedRow = t.cursor.savedRow ∧ c.savedCol = t.cursor.savedCol) :
    Ensures (t.onCursor f) t.SameSaved :=
  hf.bind fun _ hc => .pure ⟨hc.1, hc.2⟩

theorem SameSaved.scrollAfter {moved : Bool × Cursor}
    (scroll : ScreenBuffer → (n top bottom : ℕ) → Option ScreenBuffer)
    (hrow : moved.2.savedRow = t.cursor.savedRow) (hcol : moved.2.savedCol = t.cursor.savedCol) :
    Ensures (t.scrollAfter moved scroll) t.SameSaved :=
  .ite (fun _ => .after fun _ => .pure ⟨hrow, hcol⟩) fun _ => .pure ⟨hrow, hcol⟩

theorem savedRow_lineFeed (c : Cursor) :
    c.lineFeed.2.savedRow = c.savedRow ∧ c.lineFeed.2.savedCol = c.savedCol := by
  unfold Cursor.lineFeed
  dsimp only
  split <;> exact ⟨rfl, rfl⟩

theorem SameSaved.lineFeed {c : Cursor} (hrow : c.savedRow = t.cursor.savedRow)
    (hcol : c.savedCol = t.cursor.savedCol) :
    Ensures (t.scrollAfter c.lineFeed ScreenBuffer.scrollUp) t.SameSaved :=
  scrollAfter _ ((savedRow_lineFeed c).1.trans hrow) ((savedRow_lineFeed c).2.trans hcol)

theorem print_sameSaved (ch : Char) : Ensures (t.print ch) t.SameSaved := by
  have hwrap : Ensures t.wrap t.SameSaved :=
    .ite (fun _ => SameSaved.lineFeed rfl rfl) fun _ => .pure (SameSaved.same rfl)
  refine hwrap.bind fun t₁ h₁ => .bind (SameSaved.onBuffer _) fun t₂ h₂ => .pure ?_
  have hadvance : ∀ c : Cursor, c.advanceAfterPrint.savedRow = c.savedRow ∧
      c.advanceAfterPrint.savedCol = c.savedCol := by
    intro c
    unfold Cursor.advanceAfterPrint
    split <;> exact ⟨rfl, rfl⟩
  obtain ⟨hrow, hcol⟩ := hadvance t₂.cursor
  exact ⟨hrow.trans (h₂.row.trans h₁.row), hcol.trans (h₂.col.trans h₁.col)⟩

theorem executeControl_sameSaved (byte : UInt8) : Ensures (t.executeControl byte) t.SameSaved := by
  refine .ite (fun _ => .pure ⟨rfl, rfl⟩) fun _ => .ite (fun _ => SameSaved.onCursor ?_) fun _ => ?_
  · exact .ite (fun _ => .after fun _ => .pure ⟨rfl, rfl⟩) fun _ => .pure ⟨rfl, rfl⟩
  · refine .ite (fun _ => SameSaved.lineFeed rfl rfl) fun _ => ?_
    exact .ite (fun _ => .pure ⟨rfl, rfl⟩) fun _ => .pure ⟨rfl, rfl⟩

/-- A sequence that saves the cursor position. -/
def Saves (action : Action) : Prop :=
  (∃ params intermediates finalByte, action = .csiDispatch params intermediates finalByte false ∧
    charOf finalByte = 's') ∨
  (∃ byte, action = .escDispatch byte ∧ charOf byte = '7') ∨ Switches 'h' action

/-- The full reset. -/
def Resets (action : Action) : Prop := ∃ byte, action = .escDispatch byte ∧ charOf byte = 'c'

theorem executeCsi_sameSaved (params : List ℕ) {finalByte : UInt8}
    (hs : charOf finalByte ≠ 's') : Ensures (t.executeCsi params finalByte false) t.SameSaved := by
  have hone : ∀ {a b : ℕ} {f : ℕ → Cursor},
      (∀ n, (f n).savedRow = t.cursor.savedRow ∧ (f n).savedCol = t.cursor.savedCol) →
      Ensures (checkedSub a b >>= fun n => some (f n)) fun c =>
        c.savedRow = t.cursor.savedRow ∧ c.savedCol = t.cursor.savedCol :=
    fun hf => .after fun n => .pure (hf n)
  unfold executeCsi
  rw [if_neg Bool.false_ne_true]
  dsimp only
  split
  case h_2 | h_3 => exact SameSaved.onCursor (hone fun _ => ⟨rfl, rfl⟩)
  case h_5 | h_6 | h_7 | h_21 =>
    exact SameSaved.onCursor (.after fun _ => hone fun _ => ⟨rfl, rfl⟩)
  case h_8 =>
    unfold eraseDisplay
    split
    case h_5 => exact .pure ⟨rfl, rfl⟩
    all_goals exact SameSaved.onBuffer _
  case h_9 =>
    unfold eraseLine
    split
    case h_4 => exact .pure ⟨rfl, rfl⟩
    all_goals exact SameSaved.onBuffer _
  case h_10 | h_11 | h_12 | h_13 | h_17 | h_18 | h_19 => exact SameSaved.onBuffer _
  case h_14 => exact .after fun _ => .pure ⟨rfl, rfl⟩
  case h_15 =>
    unfold reportStatus
    split
    · exact .after fun _ => .pure ⟨rfl, rfl⟩
    · exact .pure ⟨rfl, rfl⟩
    · exact .pure ⟨rfl, rfl⟩
  case h_16 => exact .ite (fun _ => .pure ⟨rfl, rfl⟩) fun _ => .pure ⟨rfl, rfl⟩
  case h_20 hfinal => exact absurd hfinal hs
  case h_22 =>
    refine .pure ?_
    generalize (if params.getD 1 0 = 0 then t.buffer.rows else params.getD 1 0) = bottom
    unfold Cursor.setScrollRegion
    dsimp only
    generalize (if bottom = 0 then t.cursor.maxRows else min bottom t.cursor.maxRows) = bottom
    constructor
    · dsimp only
      split <;> rfl
    · dsimp only
      split <;> rfl
  all_goals exact .pure ⟨rfl, rfl⟩

theorem executeEsc_sameSaved {byte : UInt8} (hsave : charOf byte ≠ '7')
    (hreset : charOf byte ≠ 'c') : Ensures (t.executeEsc byte) t.SameSaved := by
  unfold executeEsc
  split
  case h_1 hfinal => exact absurd hfinal hreset
  case h_2 hfinal => exact absurd hfinal hsave
  case h_3 => exact SameSaved.onCursor (.after fun _ => .after fun _ => .pure ⟨rfl, rfl⟩)
  case h_4 => exact SameSaved.lineFeed rfl rfl
  case h_5 => exact SameSaved.lineFeed (t := t) (c := t.cursor.carriageReturn) rfl rfl
  case h_6 =>
    have hreverse : ∀ c : Cursor, c.reverseIndex.2.savedRow = c.savedRow ∧
        c.reverseIndex.2.savedCol = c.savedCol := by
      intro c
      unfold Cursor.reverseIndex
      dsimp only
      split <;> exact ⟨rfl, rfl⟩
    exact SameSaved.scrollAfter _ (hreverse t.cursor).1 (hreverse t.cursor).2
  case h_7 => exact .pure ⟨rfl, rfl⟩

/-- Only a few sequences change the saved position. -/
theorem executeAction_sameSaved (hsave : ¬ Saves action) (hreset : ¬ Resets action)
    (hdisable : ¬ Switches 'l' action) : Ensures (t.executeAction action) t.SameSaved := by
  cases action with
  | print ch => exact print_sameSaved ch
  | execute byte => exact executeControl_sameSaved byte
  | csiDispatch params intermediates finalByte isPrivate =>
    cases isPrivate with
    | false =>
      exact executeCsi_sameSaved params fun hs => hsave (.inl ⟨_, _, _, rfl, hs⟩)
    | true =>
      change Ensures (t.executeCsiPrivate params finalByte) t.SameSaved
      unfold executeCsiPrivate
      split
      case h_3 hp hc => exact absurd (.inr (.inr ⟨_, _, _, rfl, hp, hc⟩)) hsave
      case h_4 hp hc => exact absurd ⟨_, _, _, rfl, hp, hc⟩ hdisable
      all_goals exact .pure ⟨rfl, rfl⟩
  | oscDispatch s => exact .pure ⟨rfl, rfl⟩
  | escDispatch byte =>
    exact executeEsc_sameSaved (fun hs => hsave (.inr (.inl ⟨_, rfl, hs⟩)))
      fun hc => hreset ⟨_, rfl, hc⟩

/-! ## The alternate screen -/

/-- The bytes of the switch to the alternate screen, and back. -/
def enableBytes : List UInt8 := [0x1B, 0x5B, 0x3F, 0x31, 0x30, 0x34, 0x39, 0x68]

def disableBytes : List UInt8 := [0x1B, 0x5B, 0x3F, 0x31, 0x30, 0x34, 0x39, 0x6C]

variable {d : Decoder}

/-- Outside of a string an escape byte starts a sequence; a multibyte character that is not
complete is replaced before. -/
theorem byte_esc (h : d.parser.state ≠ .oscString) :
    ∃ acc seen, d.byte 0x1B = (⟨{ d.parser with state := .escape }, acc, seen, 0⟩,
      if 0 < d.utf8.2.2 then [.print replacementCharacter] else []) := by
  obtain ⟨p, acc, seen, need⟩ := d
  have hesc := EscParser.feed_esc h
  change ∃ acc' seen', (⟨p, acc, seen, need⟩ : Decoder).ascii 0x1B = _
  unfold Decoder.ascii
  dsimp only at hesc ⊢
  rw [hesc]
  by_cases hneed : 0 < need
  · rw [if_pos hneed, if_pos hneed]
    exact ⟨0, 0, rfl⟩
  · obtain rfl := Nat.eq_zero_of_not_pos hneed
    exact ⟨acc, seen, rfl⟩

theorem bytes_enable (h : d.parser.state ≠ .oscString) (hutf8 : d.utf8.2.2 = 0) :
    (d.bytes enableBytes).2 = [.csiDispatch [1049] [] 0x68 true] := by
  obtain ⟨acc, seen, hbyte⟩ := byte_esc h
  unfold enableBytes
  rw [Decoder.bytes_cons, hbyte, hutf8]
  rfl

theorem bytes_disable (h : d.parser.state ≠ .oscString) :
    (d.bytes disableBytes).2 = (if 0 < d.utf8.2.2 then [.print replacementCharacter] else []) ++
      [.csiDispatch [1049] [] 0x6C true] := by
  obtain ⟨acc, seen, hbyte⟩ := byte_esc h
  unfold disableBytes
  rw [Decoder.bytes_cons, hbyte]
  rfl

/-- The alternate screen is active, and the primary one with what it needs to come back is hidden
behind it. -/
structure Hides (t t' : Terminal) : Prop where
  valid : t'.Valid
  rows : t'.buffer.rows = t.buffer.rows
  cols : t'.buffer.cols = t.buffer.cols
  usingAlternate : t'.buffer.usingAlternate = true
  primary : t'.buffer.primary = t.buffer.primary
  scrollback : t'.buffer.scrollback = t.buffer.scrollback
  savedRow : t'.cursor.savedRow = t.cursor.row
  savedCol : t'.cursor.savedCol = t.cursor.col

theorem enable_hides (h : t.Valid) :
    Yields (t.executeAction (.csiDispatch [1049] [] 0x68 true)) t.Hides := by
  have hswitch : Switches 'h' (.csiDispatch [1049] [] 0x68 true) := ⟨_, _, _, rfl, rfl, rfl⟩
  have hadvances := executeAction_advances h (.csiDispatch [1049] [] 0x68 true)
  rw [hswitch.enable] at hadvances ⊢
  have hkeeps : Ensures ({ t with cursor := t.cursor.save }.onBuffer ScreenBuffer.enableAlternate)
      fun t' => { t.buffer with usingAlternate := true }.Keeps t'.buffer ∧
        t'.cursor = t.cursor.save :=
    (enableAlternate_keeps t.buffer).bind fun b hb => .pure ⟨hb, rfl⟩
  refine (hadvances.and hkeeps).mono ?_
  rintro t' ⟨hvalid, hbuffer, hcursor⟩
  exact ⟨hvalid.valid, hbuffer.rows, hbuffer.cols, hbuffer.usingAlternate, hbuffer.primary rfl,
    hbuffer.scrollback, by rw [hcursor]; rfl, by rw [hcursor]; rfl⟩

/-- What may be sent to the alternate screen: nothing that leaves it, resets the terminal or saves
the cursor position. -/
def Tame (action : Action) : Prop :=
  ¬ Switches 'l' action ∧ ¬ Resets action ∧ ¬ Saves action

theorem Tame.print (ch : Char) : Tame (.print ch) := by
  refine ⟨?_, ?_, ?_⟩
  · rintro ⟨_, _, _, heq, -⟩
    cases heq
  · rintro ⟨_, heq, -⟩
    cases heq
  · rintro (⟨_, _, _, heq, -⟩ | ⟨_, heq, -⟩ | ⟨_, _, _, heq, -⟩) <;> cases heq

variable {t₁ : Terminal}

theorem Hides.executeAction (h : t.Hides t₁) (htame : Tame action) :
    Yields (t₁.executeAction action) t.Hides := by
  obtain ⟨hdisable, hreset, hsave⟩ := htame
  have henable : ¬ Switches 'h' action := fun henable => hsave (.inr (.inr henable))
  have hlogs := executeAction_logs h.valid henable hdisable
  have hsame := executeAction_sameSaved (t := t₁) hsave hreset hdisable
  refine (((executeAction_advances h.valid action).and hlogs).and hsame).mono ?_
  rintro t' ⟨⟨hvalid, hkeeps⟩, hsaved⟩
  unfold Logs at hkeeps
  rw [ScreenBuffer.log_of_usingAlternate h.usingAlternate] at hkeeps
  exact ⟨hvalid.valid, hkeeps.rows.trans h.rows, hkeeps.cols.trans h.cols,
    hkeeps.usingAlternate.trans h.usingAlternate,
    (hkeeps.primary h.usingAlternate).trans h.primary, hkeeps.scrollback.trans h.scrollback,
    hsaved.row.trans h.savedRow, hsaved.col.trans h.savedCol⟩

theorem Hides.execute (h : t.Hides t₁) {actions : List Action}
    (htame : ∀ action ∈ actions, Tame action) : Yields (t₁.execute actions) t.Hides :=
  Yields.foldlM (fun action haction _ ht' => ht'.executeAction (htame action haction)) h

/-- The primary grid, the scrollback and the cursor position are as they were. -/
structure Restores (t t' : Terminal) : Prop where
  usingAlternate : t'.buffer.usingAlternate = false
  primary : t'.buffer.primary = t.buffer.primary
  scrollback : t'.buffer.scrollback = t.buffer.scrollback
  row : t'.cursor.row = t.cursor.row
  col : t'.cursor.col = t.cursor.col

theorem Restores.withDecoder (h : t.Restores t') (d : Decoder) : t.Restores (t'.withDecoder d) :=
  { h with }

theorem Hides.disable (h : t.Valid) (h₁ : t.Hides t₁) :
    Yields (t₁.executeAction (.csiDispatch [1049] [] 0x6C true)) t.Restores := by
  have hswitch : Switches 'l' (.csiDispatch [1049] [] 0x6C true) := ⟨_, _, _, rfl, rfl, rfl⟩
  have hbuffer : t₁.buffer.disableAlternate =
      { t₁.buffer with usingAlternate := false }.markAllDirty := if_pos h₁.usingAlternate
  have hinside := h₁.valid.inside
  have hrows := hinside.maxRows.trans h₁.rows
  have hcols := hinside.maxCols.trans h₁.cols
  have hrow := h.inside.row
  have hcol := h.inside.col
  rw [hswitch.disable, hbuffer]
  unfold onCursor Cursor.restore
  dsimp only
  rw [hrows, hcols, h₁.savedRow, h₁.savedCol, checkedSub_eq (by omega), checkedSub_eq (by omega)]
  refine .pure ⟨rfl, h₁.primary, h₁.scrollback, ?_, ?_⟩
  · exact Nat.min_eq_left (by omega)
  · exact Nat.min_eq_left (by omega)

/-- What may stand between the two sequences: the terminal reads the first one and the last one as
what they are, and nothing in between but tame sequences. -/
structure Enclosed (d : Decoder) (data : List UInt8) : Prop where
  parser : d.parser.state ≠ .oscString
  utf8 : d.utf8.2.2 = 0
  tame : ∀ action ∈ ((d.bytes enableBytes).1.bytes data).2, Tame action
  last : ((d.bytes enableBytes).1.bytes data).1.parser.state ≠ .oscString

/-- **The alternate screen gives back the primary one.**  After the switch to it and back the
primary grid, the scrollback and the cursor position are as before, provided that nothing in
between uses the place in which the position is saved. -/
theorem feed_restores (h : t.Valid) {data : List UInt8} (hdata : Enclosed t.decoder data) :
    ∃ t', t.feed (enableBytes ++ data ++ disableBytes) = some t' ∧ t.Restores t' := by
  have hactions : (t.decoder.bytes (enableBytes ++ data ++ disableBytes)).2 =
      [.csiDispatch [1049] [] 0x68 true] ++
        (((t.decoder.bytes enableBytes).1.bytes data).2 ++
          ((if 0 < ((t.decoder.bytes enableBytes).1.bytes data).1.utf8.2.2 then
            [.print replacementCharacter] else []) ++ [.csiDispatch [1049] [] 0x6C true])) := by
    rw [List.append_assoc, Decoder.bytes_append, Decoder.bytes_append,
      bytes_enable hdata.parser hdata.utf8, bytes_disable hdata.last]
  have hbreak : ∀ action ∈ (if 0 < ((t.decoder.bytes enableBytes).1.bytes data).1.utf8.2.2 then
      [Action.print replacementCharacter] else []), Tame action := by
    intro action haction
    split at haction
    · rw [List.mem_singleton.mp haction]
      exact Tame.print _
    · exact absurd haction List.not_mem_nil
  have hrun : Yields (t.execute (t.decoder.bytes (enableBytes ++ data ++ disableBytes)).2)
      t.Restores := by
    rw [hactions, execute_append, execute_singleton]
    refine (enable_hides h).bind fun t₁ h₁ => ?_
    rw [execute_append]
    refine (h₁.execute hdata.tame).bind fun t₂ h₂ => ?_
    rw [execute_append]
    refine (h₂.execute hbreak).bind fun t₃ h₃ => ?_
    rw [execute_singleton]
    exact Hides.disable h h₃
  obtain ⟨t', ht', hrestores⟩ := hrun
  have hfeed := feed_of_execute ht'
  exact ⟨_, hfeed, hrestores.withDecoder _⟩

/-- A letter on the alternate screen. -/
theorem feed_restores_letter :
    ∃ t', (Terminal.new 2 2).feed (enableBytes ++ [0x61] ++ disableBytes) = some t' ∧
      (Terminal.new 2 2).Restores t' := by
  refine feed_restores (new_valid (by decide) (by decide) (by decide) (by decide)) ?_
  refine ⟨by decide, rfl, fun action haction => ?_, by decide⟩
  obtain rfl : action = .print 'a' := List.mem_singleton.mp haction
  exact Tame.print 'a'

/-- The cursor is moved to the last cell and its position saved there. -/
theorem not_restores_of_save :
    (∀ action ∈ (((Terminal.new 2 2).decoder.bytes enableBytes).1.bytes
      [0x1B, 0x5B, 0x32, 0x3B, 0x32, 0x48, 0x1B, 0x37]).2,
      ¬ Switches 'l' action ∧ ¬ Resets action) ∧
    ∃ t', (Terminal.new 2 2).feed (enableBytes ++
      [0x1B, 0x5B, 0x32, 0x3B, 0x32, 0x48, 0x1B, 0x37] ++ disableBytes) = some t' ∧
      ¬ (Terminal.new 2 2).Restores t' := by
  constructor
  · intro action haction
    have hmem : action = .csiDispatch [2, 2] [] 0x48 false ∨ action = .escDispatch 0x37 := by
      change action ∈ [Action.csiDispatch [2, 2] [] 0x48 false, .escDispatch 0x37] at haction
      simpa only [List.mem_cons, List.not_mem_nil, or_false] using haction
    rcases hmem with rfl | rfl
    · constructor
      · rintro ⟨_, _, _, heq, -⟩
        cases heq
      · rintro ⟨_, heq, -⟩
        cases heq
    · constructor
      · rintro ⟨_, _, _, heq, -⟩
        cases heq
      · rintro ⟨_, heq, hbyte⟩
        cases heq
        revert hbyte
        decide
  · refine ⟨_, rfl, fun hrestores => ?_⟩
    exact absurd hrestores.row (by decide)

end Terminal

end RacOS.RacTerm
