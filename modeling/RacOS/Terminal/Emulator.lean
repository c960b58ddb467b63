import RacOS.Terminal.Buffer
import RacOS.Terminal.Cursor
import RacOS.Terminal.Escape

/-!
# The terminal emulator

The model of `terminal/src/terminal.rs`: bytes go through a UTF-8 decoder and the escape parser,
and the actions move the cursor and write the screen buffer.

A terminal of at least one cell stays in a valid state whatever bytes it is fed and to whatever
size it is changed: no operation fails, the cursor and the scroll region stay on the screen, and
the grids and flags keep the sizes that the dimensions ask for.
-/

namespace RacOS.RacTerm

open Total

/-! ## The model -/

/-- The attributes for new characters. -/
structure Style where
  fg : Color := .default
  bg : Color := .default
  attrs : CellAttrs := {}

structure Terminal where
  buffer : ScreenBuffer
  cursor : Cursor
  parser : EscParser
  /-- The value of a multibyte sequence so far, the bytes seen and the bytes it has. -/
  utf8 : ℕ × ℕ × ℕ
  style : Style
  title : String
  responseBuf : List UInt8

/-! ### Graphic rendition -/

/-- The colour after a `38` or `48` at index `i`, and the index of the last parameter used. -/
def extendedColor (params : List ℕ) (i : ℕ) (color : Color) : Option (ℕ × Color) :=
  let i := i + 1
  if i < params.length then do
    let kind ← params[i]?
    match kind with
    | 5 =>
      let i := i + 1
      if i < params.length then do
        let n ← params[i]?
        some (i, .indexed (UInt8.ofNat n))
      else some (i, color)
    | 2 =>
      if i + 3 < params.length then do
        let r ← params[i + 1]?
        let g ← params[i + 2]?
        let b ← params[i + 3]?
        some (i + 3, .rgb (UInt8.ofNat r) (UInt8.ofNat g) (UInt8.ofNat b))
      else some (i, color)
    | _ => some (i, color)
  else some (i, color)

/-- Apply the parameter at an index; the result has the index of the last parameter used. -/
def sgrStep (params : List ℕ) (i : ℕ) (s : Style) : Option (ℕ × Style) := do
  let p ← params[i]?
  match p with
  | 0 => some (i, {})
  | 1 => some (i, { s with attrs.bold := true })
  | 3 => some (i, { s with attrs.italic := true })
  | 4 => some (i, { s with attrs.underline := true })
  | 5 => some (i, { s with attrs.blink := true })
  | 7 => some (i, { s with attrs.reverse := true })
  | 9 => some (i, { s with attrs.strikethrough := true })
  | 22 => some (i, { s with attrs.bold := false })
  | 23 => some (i, { s with attrs.italic := false })
  | 24 => some (i, { s with attrs.underline := false })
  | 25 => some (i, { s with attrs.blink := false })
  | 27 => some (i, { s with attrs.reverse := false })
  | 29 => some (i, { s with attrs.strikethrough := false })
  | 38 => do
    let (i, fg) ← extendedColor params i s.fg
    some (i, { s with fg })
  | 39 => some (i, { s with fg := .default })
  | 48 => do
    let (i, bg) ← extendedColor params i s.bg
    some (i, { s with bg })
  | 49 => some (i, { s with bg := .default })
  | p =>
    if 30 ≤ p ∧ p ≤ 37 then some (i, { s with fg := .indexed (UInt8.ofNat (p - 30)) })
    else if 40 ≤ p ∧ p ≤ 47 then some (i, { s with bg := .indexed (UInt8.ofNat (p - 40)) })
    else if 90 ≤ p ∧ p ≤ 97 then some (i, { s with fg := .indexed (UInt8.ofNat (p - 90 + 8)) })
    else if 100 ≤ p ∧ p ≤ 107 then
      some (i, { s with bg := .indexed (UInt8.ofNat (p - 100 + 8)) })
    else some (i, s)

/-- The loop over the parameters; every round uses at least one. -/
def sgrLoop (params : List ℕ) : (fuel i : ℕ) → Style → Option Style
  | 0, _, s => some s
  | fuel + 1, i, s =>
    if i < params.length then do
      let (i, s) ← sgrStep params i s
      sgrLoop params fuel (i + 1) s
    else some s

def executeSgr (params : List ℕ) (s : Style) : Option Style :=
  if params = [] then some {} else sgrLoop params params.length 0 s

/-! ### Responses -/

/-- The decimal digits of a number, last one first, in a buffer with some room left. -/
def digitsInto : (room n : ℕ) → Option (List UInt8)
  | _, 0 => some []
  | 0, _ + 1 => none
  | room + 1, n + 1 => do
    let rest ← digitsInto room ((n + 1) / 10)
    some (UInt8.ofNat (0x30 + (n + 1) % 10) :: rest)

/-- The bytes of a number; the source collects them in a buffer of ten. -/
def responseNum (n : ℕ) : Option (List UInt8) :=
  if n = 0 then some [0x30]
  else do
    let digits ← digitsInto 10 n
    some digits.reverse

/-- The report of a cursor position. -/
def responseCpr (row col : ℕ) : Option (List UInt8) := do
  let row ← responseNum row
  let col ← responseNum col
  some ([0x1B, 0x5B] ++ row ++ [0x3B] ++ col ++ [0x52])

/-! ### Actions -/

namespace Terminal

protected def new (rows cols : ℕ) : Terminal where
  buffer := ScreenBuffer.new rows cols
  cursor := Cursor.new rows cols
  parser := {}
  utf8 := (0, 0, 0)
  style := {}
  title := ""
  responseBuf := []

def setScrollbackLimit (t : Terminal) (limit : ℕ) : Terminal :=
  { t with buffer := t.buffer.setScrollbackLimit limit }

def onBuffer (t : Terminal) (f : ScreenBuffer → Option ScreenBuffer) : Option Terminal := do
  let buffer ← f t.buffer
  some { t with buffer }

def onCursor (t : Terminal) (f : Cursor → Option Cursor) : Option Terminal := do
  let cursor ← f t.cursor
  some { t with cursor }

/-- Take over a moved cursor, and scroll the region by a line if that is needed. -/
def scrollAfter (t : Terminal) (moved : Bool × Cursor)
    (scroll : ScreenBuffer → (n top bottom : ℕ) → Option ScreenBuffer) : Option Terminal :=
  let t := { t with cursor := moved.2 }
  if moved.1 then t.onBuffer fun b => scroll b 1 t.cursor.scrollTop t.cursor.scrollBottom
  else some t

def lineFeed (t : Terminal) : Option Terminal :=
  t.scrollAfter t.cursor.lineFeed ScreenBuffer.scrollUp

/-- Do a wrap that is pending. -/
def wrap (t : Terminal) : Option Terminal :=
  if t.cursor.wrapPending then t.scrollAfter t.cursor.doWrap ScreenBuffer.scrollUp else some t

def print (t : Terminal) (ch : Char) : Option Terminal := do
  let t ← t.wrap
  let t ← t.onBuffer fun b =>
    b.putChar t.cursor.row t.cursor.col ch t.style.fg t.style.bg t.style.attrs
  some { t with cursor := t.cursor.advanceAfterPrint }

def executeControl (t : Terminal) (byte : UInt8) : Option Terminal :=
  if byte = 0x08 then some { t with cursor := t.cursor.backspace }
  else if byte = 0x09 then t.onCursor Cursor.tab
  else if byte = 0x0A ∨ byte = 0x0B ∨ byte = 0x0C then t.lineFeed
  else if byte = 0x0D then some { t with cursor := t.cursor.carriageReturn }
  else some t

/-- Erase a part of the display. -/
def eraseDisplay (t : Terminal) : (p : ℕ) → Option Terminal
  | 0 => t.onBuffer fun b => b.clearBelow t.cursor.row t.cursor.col
  | 1 => t.onBuffer fun b => b.clearAbove t.cursor.row t.cursor.col
  | 2 | 3 => t.onBuffer ScreenBuffer.clear
  | _ => some t

/-- Erase a part of the line. -/
def eraseLine (t : Terminal) : (p : ℕ) → Option Terminal
  | 0 => t.onBuffer fun b => b.clearLine t.cursor.row t.cursor.col b.cols
  | 1 => t.onBuffer fun b => b.clearLine t.cursor.row 0 (t.cursor.col + 1)
  | 2 => t.onBuffer fun b => b.clearLine t.cursor.row 0 b.cols
  | _ => some t

/-- Report the cursor position or the status. -/
def reportStatus (t : Terminal) : (p : ℕ) → Option Terminal
  | 6 => do
    let report ← responseCpr (t.cursor.row + 1) (t.cursor.col + 1)
    some { t with responseBuf := t.responseBuf ++ report }
  | 5 => some { t with responseBuf := t.responseBuf ++ [0x1B, 0x5B, 0x30, 0x6E] }
  | _ => some t

def executeCsiPrivate (t : Terminal) (params : List ℕ) (finalByte : UInt8) : Option Terminal :=
  match params.headD 0, charOf finalByte with
  | 25, 'h' => some { t with cursor.visible := true }
  | 25, 'l' => some { t with cursor.visible := false }
  | 1049, 'h' => { t with cursor := t.cursor.save }.onBuffer ScreenBuffer.enableAlternate
  | 1049, 'l' => { t with buffer := t.buffer.disableAlternate }.onCursor Cursor.restore
  | _, _ => some t

def executeCsi (t : Terminal) (params : List ℕ) (finalByte : UInt8) (isPrivate : Bool) :
    Option Terminal :=
  if isPrivate then t.executeCsiPrivate params finalByte
  else
    let p1 := params.headD 0
    let p2 := params.getD 1 0
    let n := max p1 1
    match charOf finalByte with
    | 'A' => some { t with cursor := t.cursor.moveUp n }
    | 'B' => t.onCursor fun c => c.moveDown n
    | 'C' => t.onCursor fun c => c.moveForward n
    | 'D' => some { t with cursor := t.cursor.moveBack n }
    | 'H' | 'f' => t.onCursor fun c => c.setPosition n (max p2 1)
    | 'G' => t.onCursor fun c => c.setPosition (c.row + 1) n
    | 'J' => t.eraseDisplay p1
    | 'K' => t.eraseLine p1
    | 'L' => t.onBuffer fun b => b.insertLines t.cursor.row n t.cursor.scrollBottom
    | 'M' => t.onBuffer fun b => b.deleteLines t.cursor.row n t.cursor.scrollBottom
    | 'S' => t.onBuffer fun b => b.scrollUp n t.cursor.scrollTop t.cursor.scrollBottom
    | 'T' => t.onBuffer fun b => b.scrollDown n t.cursor.scrollTop t.cursor.scrollBottom
    | 'm' => do
      let style ← executeSgr params t.style
      some { t with style }
    | 'n' => t.reportStatus p1
    | 'c' =>
      if p1 = 0 then
        some { t with
          responseBuf := t.responseBuf ++ [0x1B, 0x5B, 0x3F, 0x31, 0x3B, 0x32, 0x63] }
      else some t
    | '@' => t.onBuffer fun b => b.insertChars t.cursor.row t.cursor.col n
    | 'P' => t.onBuffer fun b => b.deleteChars t.cursor.row t.cursor.col n
    | 'X' => t.onBuffer fun b => b.eraseChars t.cursor.row t.cursor.col n
    | 's' => some { t with cursor := t.cursor.save }
    | 'u' => t.onCursor Cursor.restore
    | 'r' =>
      some { t with
        cursor := t.cursor.setScrollRegion n (if p2 = 0 then t.buffer.rows else p2) }
    | _ => some t

/-- The string after `0;` is the window title. -/
def executeOsc (t : Terminal) (s : String) : Terminal :=
  { t with
    title := match s.toList with
      | '0' :: ';' :: title => String.ofList title
      | _ => t.title }

/-- Reset the screen, the cursor, the attributes and the title. -/
def reset (t : Terminal) : Option Terminal := do
  let t ← t.onBuffer ScreenBuffer.clear
  some { t with
    cursor := Cursor.new t.buffer.rows t.buffer.cols, style := {}, title := "" }

def executeEsc (t : Terminal) (byte : UInt8) : Option Terminal :=
  match charOf byte with
  | 'c' => t.reset
  | '7' => some { t with cursor := t.cursor.save }
  | '8' => t.onCursor Cursor.restore
  | 'D' => t.lineFeed
  | 'E' => { t with cursor := t.cursor.carriageReturn }.lineFeed
  | 'M' => t.scrollAfter t.cursor.reverseIndex ScreenBuffer.scrollDown
  | _ => some t

def executeAction (t : Terminal) : Action → Option Terminal
  | .print ch => t.print ch
  | .execute byte => t.executeControl byte
  | .csiDispatch params _ finalByte isPrivate => t.executeCsi params finalByte isPrivate
  | .oscDispatch s => some (t.executeOsc s)
  | .escDispatch byte => t.executeEsc byte

/-! ### Bytes -/

def replacementCharacter : Char := Char.ofNat 0xFFFD

/-- The character with a code, or the replacement character. -/
def charFromU32 (n : ℕ) : Char := if n.isValidChar then Char.ofNat n else replacementCharacter

/-- A byte that starts a multibyte sequence, or should. -/
def feedLead (t : Terminal) (byte : UInt8) : Option Terminal :=
  if 0xC2 ≤ byte ∧ byte ≤ 0xDF then some { t with utf8 := ((byte &&& 0x1F).toNat, 1, 2) }
  else if 0xE0 ≤ byte ∧ byte ≤ 0xEF then some { t with utf8 := ((byte &&& 0x0F).toNat, 1, 3) }
  else if 0xF0 ≤ byte ∧ byte ≤ 0xF4 then some { t with utf8 := ((byte &&& 0x07).toNat, 1, 4) }
  else t.print replacementCharacter

/-- A byte below `0x80` ends a multibyte sequence that is not complete. -/
def breakSequence (t : Terminal) : Option Terminal :=
  if 0 < t.utf8.2.2 then { t with utf8 := (0, 0, 0) }.print replacementCharacter else some t

/-- Hand a byte to the escape parser. -/
def feedParser (t : Terminal) (byte : UInt8) : Option Terminal :=
  let (parser, action) := t.parser.feed byte
  match action with
  | some action => { t with parser }.executeAction action
  | none => some { t with parser }

/-- A byte of `0x80` or more while a multibyte sequence is open. -/
def feedContinuation (t : Terminal) (byte : UInt8) : Option Terminal :=
  let (acc, seen, need) := t.utf8
  if byte ≤ 0xBF then
    let acc := (acc <<< 6) % 2 ^ 32 ||| (byte &&& 0x3F).toNat
    if seen + 1 = need then { t with utf8 := (0, 0, 0) }.print (charFromU32 acc)
    else some { t with utf8 := (acc, seen + 1, need) }
  else do
    -- no sequence is open when the byte is looked at again
    let t ← { t with utf8 := (0, 0, 0) }.print replacementCharacter
    t.feedLead byte

def feedByte (t : Terminal) (byte : UInt8) : Option Terminal :=
  if byte < 0x80 then do
    let t ← t.breakSequence
    t.feedParser byte
  else if t.utf8.2.2 = 0 then t.feedLead byte
  else t.feedContinuation byte

/-- Process the bytes that a program writes. -/
def feed (t : Terminal) (data : List UInt8) : Option Terminal := data.foldlM feedByte t

def resize (t : Terminal) (rows cols : ℕ) : Option Terminal := do
  let buffer ← t.buffer.resize rows cols
  some { t with buffer, cursor := t.cursor.resize rows cols }

end Terminal

theorem extendedColor_yields (params : List ℕ) (i : ℕ) (color : Color) :
    Yields (extendedColor params i color) fun _ => True := by
  have hget : ∀ {j : ℕ}, j < params.length → Yields params[j]? fun _ => True := fun hj =>
    ⟨_, List.getElem?_eq_getElem hj, trivial⟩
  refine .ite (fun hi => (hget hi).bind fun kind _ => ?_) fun _ => .pure trivial
  split
  · exact .ite (fun hi => (hget hi).bind fun _ _ => .pure trivial) fun _ => .pure trivial
  · refine .ite (fun hi => ?_) fun _ => .pure trivial
    exact (hget (by omega)).bind fun _ _ => (hget (by omega)).bind fun _ _ =>
      (hget hi).bind fun _ _ => .pure trivial
  · exact .pure trivial

theorem sgrStep_yields {params : List ℕ} {i : ℕ} (hi : i < params.length) (s : Style) :
    Yields (sgrStep params i s) fun _ => True := by
  unfold sgrStep
  rw [List.getElem?_eq_getElem hi]
  simp only [Option.bind_eq_bind, Option.bind_some]
  split
  case h_14 => exact (extendedColor_yields params i s.fg).bind fun _ _ => .pure trivial
  case h_16 => exact (extendedColor_yields params i s.bg).bind fun _ _ => .pure trivial
  case h_18 => repeat' first | exact .pure trivial | split
  all_goals exact .pure trivial

theorem executeSgr_yields (params : List ℕ) (s : Style) :
    Yields (executeSgr params s) fun _ => True := by
  have hloop : ∀ fuel i s, Yields (sgrLoop params fuel i s) fun _ => True := by
    intro fuel
    induction fuel with
    | zero => exact fun _ _ => .pure trivial
    | succ fuel ih =>
      intro i s
      exact .ite (fun hi => (sgrStep_yields hi s).bind fun r _ => ih (r.1 + 1) r.2) fun _ =>
        .pure trivial
  exact .ite (fun _ => .pure trivial) fun _ => hloop _ _ _

/-- A number of at most `room` digits fits. -/
theorem digitsInto_yields {room n : ℕ} (h : n < 10 ^ room) :
    Yields (digitsInto room n) fun _ => True := by
  induction room generalizing n with
  | zero =>
    obtain rfl : n = 0 := by simpa using h
    exact .pure trivial
  | succ room ih =>
    cases n with
    | zero => exact .pure trivial
    | succ n =>
      refine (ih ?_).bind fun _ _ => .pure trivial
      rw [Nat.pow_succ] at h
      exact Nat.div_lt_of_lt_mul (by omega)

theorem responseNum_yields {n : ℕ} (h : n ≤ 2 ^ 32) : Yields (responseNum n) fun _ => True :=
  .ite (fun _ => .pure trivial) fun _ =>
    (digitsInto_yields (by omega)).bind fun _ _ => .pure trivial

/-! ## Valid terminals -/

namespace Terminal

/-- The buffer has its shape, and the cursor and the scroll region are inside it.  The dimensions
are numbers of 32 bits. -/
structure Valid (t : Terminal) : Prop where
  shaped : t.buffer.Shaped
  inside : t.cursor.Inside t.buffer.rows t.buffer.cols
  rows_lt : t.buffer.rows < 2 ^ 32
  cols_lt : t.buffer.cols < 2 ^ 32

/-- A step from `t` reaches a valid terminal in which every row that changed is marked. -/
structure Advances (t t' : Terminal) : Prop where
  valid : t'.Valid
  painted : t.buffer.Painted t'.buffer

variable {t t' t'' : Terminal}

theorem Advances.refl (h : t.Valid) : t.Advances t := ⟨h, .refl t.buffer⟩

theorem Advances.trans (h : t.Advances t') (h' : t'.Advances t'') : t.Advances t'' :=
  ⟨h'.valid, h.painted.trans h'.painted⟩

theorem Advances.seq {x : Option Terminal} {f : Terminal → Option Terminal}
    (hx : Yields x t.Advances) (hf : ∀ t', t'.Valid → Yields (f t') t'.Advances) :
    Yields (x >>= f) t.Advances := by
  refine hx.bind fun t' ht' => ?_
  exact (hf t' ht'.valid).mono fun t'' ht'' => ht'.trans ht''

section Valid

variable (h : t.Valid)

include h

theorem Valid.rows_pos : 0 < t.buffer.rows := Nat.zero_lt_of_lt h.inside.row

theorem Valid.cols_pos : 0 < t.buffer.cols := Nat.zero_lt_of_lt h.inside.col

theorem Valid.withCursor {cursor : Cursor} (hc : cursor.Inside t.buffer.rows t.buffer.cols) :
    t.Advances { t with cursor } :=
  ⟨⟨h.shaped, hc, h.rows_lt, h.cols_lt⟩, .refl t.buffer⟩

theorem Valid.onCursor {f : Cursor → Option Cursor}
    (hf : Yields (f t.cursor) (Cursor.Inside t.buffer.rows t.buffer.cols)) :
    Yields (t.onCursor f) t.Advances :=
  hf.bind fun _ hc => .pure (h.withCursor hc)

theorem Valid.onBuffer {f : ScreenBuffer → Option ScreenBuffer}
    (hf : Yields (f t.buffer) t.buffer.Painted) : Yields (t.onBuffer f) t.Advances := by
  refine hf.bind fun b hb => .pure ⟨⟨hb.shaped h.shaped, ?_, ?_, ?_⟩, hb⟩
  · rw [hb.rows, hb.cols]
    exact h.inside
  · exact hb.rows ▸ h.rows_lt
  · exact hb.cols ▸ h.cols_lt

theorem Valid.same (hbuffer : t'.buffer = t.buffer) (hcursor : t'.cursor = t.cursor) :
    t.Advances t' := by
  constructor
  · refine ⟨?_, ?_, ?_, ?_⟩ <;> rw [hbuffer]
    · exact h.shaped
    · exact hcursor ▸ h.inside
    · exact h.rows_lt
    · exact h.cols_lt
  · rw [hbuffer]
    exact .refl t.buffer

theorem scrollAfter_advances {moved : Bool × Cursor}
    {scroll : ScreenBuffer → (n top bottom : ℕ) → Option ScreenBuffer}
    (hc : moved.2.Inside t.buffer.rows t.buffer.cols)
    (hscroll : ∀ n top bottom, Yields (scroll t.buffer n top bottom) t.buffer.Painted) :
    Yields (t.scrollAfter moved scroll) t.Advances := by
  have hmoved := h.withCursor hc
  refine .ite (fun _ => ?_) fun _ => .pure hmoved
  exact (hmoved.valid.onBuffer (hscroll _ _ _)).mono fun t' ht' => hmoved.trans ht'

theorem lineFeed_advances : Yields t.lineFeed t.Advances :=
  scrollAfter_advances h h.inside.lineFeed
    (ScreenBuffer.scrollUp_painted h.shaped h.rows_pos)

theorem wrap_advances : Yields t.wrap t.Advances :=
  .ite (fun _ => scrollAfter_advances h h.inside.doWrap
    (ScreenBuffer.scrollUp_painted h.shaped h.rows_pos)) fun _ => .pure (.refl h)

theorem print_advances (ch : Char) : Yields (t.print ch) t.Advances := by
  refine Advances.seq (wrap_advances h) fun t₁ h₁ => ?_
  refine Advances.seq (h₁.onBuffer (ScreenBuffer.putChar_painted h₁.shaped ..)) fun t₂ h₂ => ?_
  exact .pure (h₂.withCursor h₂.inside.advanceAfterPrint)

theorem executeControl_advances (byte : UInt8) : Yields (t.executeControl byte) t.Advances := by
  unfold executeControl
  refine .ite (fun _ => .pure (h.withCursor h.inside.backspace)) fun _ => ?_
  refine .ite (fun _ => h.onCursor h.inside.tab) fun _ => ?_
  refine .ite (fun _ => lineFeed_advances h) fun _ => ?_
  exact .ite (fun _ => .pure (h.withCursor h.inside.carriageReturn)) fun _ => .pure (.refl h)

theorem eraseDisplay_advances (p : ℕ) : Yields (t.eraseDisplay p) t.Advances := by
  unfold eraseDisplay
  split
  · exact h.onBuffer (ScreenBuffer.clearBelow_painted h.shaped h.inside.row _)
  · exact h.onBuffer (ScreenBuffer.clearAbove_painted h.shaped h.inside.row h.cols_pos _)
  · exact h.onBuffer ((ScreenBuffer.clear_repaints h.shaped).mono fun _ => And.left)
  · exact h.onBuffer ((ScreenBuffer.clear_repaints h.shaped).mono fun _ => And.left)
  · exact .pure (.refl h)

theorem eraseLine_advances (p : ℕ) : Yields (t.eraseLine p) t.Advances := by
  unfold eraseLine
  split
  · exact h.onBuffer (ScreenBuffer.clearLine_painted h.shaped ..)
  · exact h.onBuffer (ScreenBuffer.clearLine_painted h.shaped ..)
  · exact h.onBuffer (ScreenBuffer.clearLine_painted h.shaped ..)
  · exact .pure (.refl h)

theorem reportStatus_advances (p : ℕ) : Yields (t.reportStatus p) t.Advances := by
  have hrow : t.cursor.row + 1 ≤ 2 ^ 32 := Nat.le_trans h.inside.row (Nat.le_of_lt h.rows_lt)
  have hcol : t.cursor.col + 1 ≤ 2 ^ 32 := Nat.le_trans h.inside.col (Nat.le_of_lt h.cols_lt)
  unfold reportStatus
  split
  · have hreport : Yields (responseCpr (t.cursor.row + 1) (t.cursor.col + 1)) fun _ => True :=
      (responseNum_yields hrow).bind fun _ _ => (responseNum_yields hcol).bind fun _ _ =>
        .pure trivial
    exact hreport.bind fun _ _ => .pure (h.same rfl rfl)
  · exact .pure (h.same rfl rfl)
  · exact .pure (.refl h)

theorem executeCsiPrivate_advances (params : List ℕ) (finalByte : UInt8) :
    Yields (t.executeCsiPrivate params finalByte) t.Advances := by
  unfold executeCsiPrivate
  split
  · exact .pure (h.withCursor { h.inside with })
  · exact .pure (h.withCursor { h.inside with })
  · have hsave := h.withCursor h.inside.save
    refine (hsave.valid.onBuffer (ScreenBuffer.enableAlternate_painted h.shaped)).mono ?_
    exact fun t' ht' => hsave.trans ht'
  · have hswitch : Yields (t.onBuffer fun b => some b.disableAlternate) t.Advances :=
      h.onBuffer (.pure (ScreenBuffer.disableAlternate_painted h.shaped))
    exact Advances.seq hswitch fun t' h' => h'.onCursor h'.inside.restore
  · exact .pure (.refl h)

theorem executeCsi_advances (params : List ℕ) (finalByte : UInt8) (isPrivate : Bool) :
    Yields (t.executeCsi params finalByte isPrivate) t.Advances := by
  refine .ite (fun _ => executeCsiPrivate_advances h params finalByte) fun _ => ?_
  dsimp only
  split
  · exact .pure (h.withCursor (h.inside.moveUp _))
  · exact h.onCursor (h.inside.moveDown _)
  · exact h.onCursor (h.inside.moveForward _)
  · exact .pure (h.withCursor (h.inside.moveBack _))
  · exact h.onCursor (h.inside.setPosition _ _)
  · exact h.onCursor (h.inside.setPosition _ _)
  · exact h.onCursor (h.inside.setPosition _ _)
  · exact eraseDisplay_advances h _
  · exact eraseLine_advances h _
  · exact h.onBuffer (ScreenBuffer.insertLines_painted h.shaped h.rows_pos ..)
  · exact h.onBuffer (ScreenBuffer.deleteLines_painted h.shaped h.rows_pos ..)
  · exact h.onBuffer (ScreenBuffer.scrollUp_painted h.shaped h.rows_pos ..)
  · exact h.onBuffer (ScreenBuffer.scrollDown_painted h.shaped h.rows_pos ..)
  · exact (executeSgr_yields params t.style).bind fun _ _ => .pure (h.same rfl rfl)
  · exact reportStatus_advances h _
  · exact .ite (fun _ => .pure (h.same rfl rfl)) fun _ => .pure (.refl h)
  · exact h.onBuffer (ScreenBuffer.insertChars_painted h.shaped ..)
  · exact h.onBuffer (ScreenBuffer.deleteChars_painted h.shaped ..)
  · exact h.onBuffer (ScreenBuffer.eraseChars_painted h.shaped ..)
  · exact .pure (h.withCursor h.inside.save)
  · exact h.onCursor h.inside.restore
  · exact .pure (h.withCursor (h.inside.setScrollRegion _ _))
  · exact .pure (.refl h)

theorem reset_advances : Yields t.reset t.Advances := by
  have hclear := h.onBuffer ((ScreenBuffer.clear_repaints h.shaped).mono fun _ => And.left)
  refine Advances.seq hclear fun t' h' => .pure ?_
  have hnew := h'.withCursor (Cursor.new_inside h'.rows_pos h'.cols_pos)
  exact hnew.trans (hnew.valid.same rfl rfl)

theorem executeEsc_advances (byte : UInt8) : Yields (t.executeEsc byte) t.Advances := by
  unfold executeEsc
  split
  · exact reset_advances h
  · exact .pure (h.withCursor h.inside.save)
  · exact h.onCursor h.inside.restore
  · exact lineFeed_advances h
  · have hreturn := h.withCursor h.inside.carriageReturn
    exact (lineFeed_advances hreturn.valid).mono fun t' ht' => hreturn.trans ht'
  · exact scrollAfter_advances h h.inside.reverseIndex
      (ScreenBuffer.scrollDown_painted h.shaped h.rows_pos)
  · exact .pure (.refl h)

theorem executeAction_advances (action : Action) : Yields (t.executeAction action) t.Advances := by
  cases action with
  | print ch => exact print_advances h ch
  | execute byte => exact executeControl_advances h byte
  | csiDispatch params intermediates finalByte isPrivate =>
    exact executeCsi_advances h params finalByte isPrivate
  | oscDispatch s => exact .pure (h.same rfl rfl)
  | escDispatch byte => exact executeEsc_advances h byte

/-! ## Bytes and runs -/

theorem print_after (ch : Char) (utf8 : ℕ × ℕ × ℕ) :
    Yields ({ t with utf8 }.print ch) t.Advances := by
  have hsame : t.Advances { t with utf8 } := h.same rfl rfl
  exact (print_advances hsame.valid ch).mono fun t' ht' => hsame.trans ht'

theorem feedLead_advances (byte : UInt8) : Yields (t.feedLead byte) t.Advances := by
  unfold feedLead
  refine .ite (fun _ => .pure (h.same rfl rfl)) fun _ => ?_
  refine .ite (fun _ => .pure (h.same rfl rfl)) fun _ => ?_
  exact .ite (fun _ => .pure (h.same rfl rfl)) fun _ => print_advances h _

theorem breakSequence_advances : Yields t.breakSequence t.Advances :=
  .ite (fun _ => print_after h _ _) fun _ => .pure (.refl h)

theorem feedParser_advances (byte : UInt8) : Yields (t.feedParser byte) t.Advances := by
  unfold feedParser
  have hsame : t.Advances { t with parser := (t.parser.feed byte).1 } := h.same rfl rfl
  dsimp only
  split
  · exact (executeAction_advances hsame.valid _).mono fun t' ht' => hsame.trans ht'
  · exact .pure hsame

theorem feedContinuation_advances (byte : UInt8) : Yields (t.feedContinuation byte) t.Advances := by
  unfold feedContinuation
  refine .ite (fun _ => .ite (fun _ => print_after h _ _) fun _ => .pure (h.same rfl rfl))
    fun _ => ?_
  exact Advances.seq (print_after h _ _) fun t' h' => feedLead_advances h' byte

theorem feedByte_advances (byte : UInt8) : Yields (t.feedByte byte) t.Advances := by
  refine .ite (fun _ => ?_) fun _ => .ite (fun _ => feedLead_advances h byte) fun _ =>
    feedContinuation_advances h byte
  exact Advances.seq (breakSequence_advances h) fun t' h' => feedParser_advances h' byte

/-- Whatever bytes come, the terminal goes on in a valid state. -/
theorem feed_advances (data : List UInt8) : Yields (t.feed data) t.Advances := by
  refine Yields.foldlM (fun byte _ t' ht' => ?_) (.refl h)
  exact (feedByte_advances ht'.valid byte).mono fun t'' ht'' => ht'.trans ht''

theorem resize_valid {rows cols : ℕ} (hrows : 0 < rows) (hcols : 0 < cols)
    (hrows' : rows < 2 ^ 32) (hcols' : cols < 2 ^ 32) : Yields (t.resize rows cols) Valid := by
  refine (ScreenBuffer.resize_shaped h.shaped rows cols).bind ?_
  rintro b ⟨rfl, rfl, hshaped⟩
  exact .pure ⟨hshaped, Cursor.Inside.resize t.cursor hrows hcols, hrows', hcols'⟩

end Valid

theorem feed_append (t : Terminal) (data data' : List UInt8) :
    t.feed (data ++ data') = t.feed data >>= fun t => t.feed data' :=
  List.foldlM_append

theorem new_valid {rows cols : ℕ} (hrows : 0 < rows) (hcols : 0 < cols) (hrows' : rows < 2 ^ 32)
    (hcols' : cols < 2 ^ 32) : (Terminal.new rows cols).Valid where
  shaped := ⟨List.length_replicate, List.length_replicate, List.length_replicate⟩
  inside := Cursor.new_inside hrows hcols
  rows_lt := hrows'
  cols_lt := hcols'

inductive Event
  | feed (data : List UInt8)
  | resize (rows cols : ℕ)

def step (t : Terminal) : Event → Option Terminal
  | .feed data => t.feed data
  | .resize rows cols => t.resize rows cols

/-- The terminal after a sequence of calls. -/
def run (t : Terminal) (events : List Event) : Option Terminal := events.foldlM step t

/-- A screen has at least one row and one column, and at most 65535. -/
def Bounded (rows cols : ℕ) : Prop := (1 ≤ rows ∧ rows ≤ 65535) ∧ 1 ≤ cols ∧ cols ≤ 65535

/-- A resize is to a screen within the bounds. -/
def Event.Bounded : Event → Prop
  | .feed _ => True
  | .resize rows cols => Terminal.Bounded rows cols

/-- Every call keeps the terminal valid. -/
theorem step_valid (h : t.Valid) {e : Event} (he : e.Bounded) : Yields (t.step e) Valid := by
  cases e with
  | feed data => exact (feed_advances h data).mono fun _ ht' => ht'.valid
  | resize rows cols =>
    obtain ⟨⟨hrows, hrows'⟩, hcols, hcols'⟩ := he
    exact resize_valid h hrows hcols (by omega) (by omega)

/-- **The terminal's invariant.**  From a new terminal on, no sequence of calls fails, the cursor
and the scroll region are on the screen, and the grids and the flags have their sizes. -/
theorem run_onScreen {rows cols : ℕ} (h : Bounded rows cols) {events : List Event}
    (hevents : ∀ e ∈ events, e.Bounded) :
    ∃ t, (Terminal.new rows cols).run events = some t ∧
      t.cursor.row < t.buffer.rows ∧ t.cursor.col < t.buffer.cols ∧
      t.cursor.scrollTop < t.cursor.scrollBottom ∧ t.cursor.scrollBottom ≤ t.buffer.rows ∧
      t.buffer.primary.length = t.buffer.rows * t.buffer.cols ∧
      t.buffer.alternate.length = t.buffer.rows * t.buffer.cols ∧
      t.buffer.dirty.length = t.buffer.rows := by
  obtain ⟨⟨hrows, hrows'⟩, hcols, hcols'⟩ := h
  have hnew : (Terminal.new rows cols).Valid :=
    new_valid hrows hcols (by omega) (by omega)
  have hrun : Yields ((Terminal.new rows cols).run events) Valid :=
    Yields.foldlM (fun e he t ht => step_valid ht (hevents e he)) hnew
  obtain ⟨t, ht, hvalid⟩ := hrun
  exact ⟨t, ht, hvalid.inside.row, hvalid.inside.col, hvalid.inside.scrollTop,
    hvalid.inside.scrollBottom, hvalid.shaped.primary, hvalid.shaped.alternate,
    hvalid.shaped.dirty⟩

/-- A screen of two rows and three columns that is written and then shrunk to one cell. -/
theorem run_onScreen_shrunk :
    ∃ t, (Terminal.new 2 3).run [.feed [0x61, 0x62, 0x63, 0x64], .resize 1 1] = some t ∧
      t.cursor.row < t.buffer.rows ∧ t.cursor.col < t.buffer.cols ∧
      t.cursor.scrollTop < t.cursor.scrollBottom ∧ t.cursor.scrollBottom ≤ t.buffer.rows ∧
      t.buffer.primary.length = t.buffer.rows * t.buffer.cols ∧
      t.buffer.alternate.length = t.buffer.rows * t.buffer.cols ∧
      t.buffer.dirty.length = t.buffer.rows := by
  refine run_onScreen (by unfold Bounded; decide) fun e he => ?_
  simp only [List.mem_cons, List.not_mem_nil, or_false] at he
  rcases he with rfl | rfl
  · trivial
  · unfold Event.Bounded Bounded
    decide

/-- **Rows to draw again.**  Whatever bytes a valid terminal is fed, it goes on, no mark is lost,
and a row that is not marked afterwards shows the cells that it showed before. -/
theorem feed_marksChanges (h : t.Valid) (data : List UInt8) :
    ∃ t', t.feed data = some t' ∧ t'.Valid ∧
      t'.buffer.rows = t.buffer.rows ∧ t'.buffer.cols = t.buffer.cols ∧
      (∀ r, t.buffer.isDirty r = true → t'.buffer.isDirty r = true) ∧
      ∀ r, t'.buffer.isDirty r = false →
        ∀ c < t.buffer.cols, t'.buffer.get r c = t.buffer.get r c := by
  obtain ⟨t', hfeed, hvalid, hpainted⟩ := feed_advances h data
  refine ⟨t', hfeed, hvalid, hpainted.rows, hpainted.cols, hpainted.dirty, fun r hr c hc => ?_⟩
  exact hpainted.cell r c hc fun hmarked => by cases hr.symm.trans hmarked

/-- A letter on a screen of two rows that has just been drawn. -/
theorem feed_marksChanges_letter :
    ∃ t', feed { Terminal.new 2 3 with buffer.dirty := [false, false] } [0x61] = some t' ∧
      ∀ r, t'.buffer.isDirty r = false →
        ∀ c < 3, t'.buffer.get r c = (Terminal.new 2 3).buffer.get r c := by
  have hvalid := @new_valid 2 3 (by decide) (by decide) (by decide) (by decide)
  obtain ⟨t', hfeed, -, -, -, -, hcells⟩ :=
    @feed_marksChanges { Terminal.new 2 3 with buffer.dirty := [false, false] }
      { hvalid with shaped := ⟨rfl, rfl, rfl⟩ } [0x61]
  exact ⟨t', hfeed, hcells⟩

end Terminal

end RacOS.RacTerm
