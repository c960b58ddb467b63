import RacOS.Terminal.Emulator

/-!
# Decoding and executing

The emulator read as two machines.  The decoder turns bytes into actions; its state is that of the
escape parser and of the UTF-8 decoder above it.  The screen executes the actions, and never looks
at the decoder.  So what a terminal does with some bytes is to execute the actions that the
decoder makes of them, however the bytes are cut into chunks.
-/

namespace RacOS.RacTerm

/-! ## The decoder -/

/-- What the terminal remembers of the bytes before. -/
structure Decoder where
  parser : EscParser
  utf8 : ℕ × ℕ × ℕ

namespace Decoder

open Terminal (replacementCharacter charFromU32)

/-- A byte that starts a multibyte sequence, or should. -/
def lead (d : Decoder) (byte : UInt8) : Decoder × List Action :=
  if 0xC2 ≤ byte ∧ byte ≤ 0xDF then ({ d with utf8 := ((byte &&& 0x1F).toNat, 1, 2) }, [])
  else if 0xE0 ≤ byte ∧ byte ≤ 0xEF then ({ d with utf8 := ((byte &&& 0x0F).toNat, 1, 3) }, [])
  else if 0xF0 ≤ byte ∧ byte ≤ 0xF4 then ({ d with utf8 := ((byte &&& 0x07).toNat, 1, 4) }, [])
  else (d, [.print replacementCharacter])

/-- A byte of `0x80` or more while a multibyte sequence is open. -/
def continuation (d : Decoder) (byte : UInt8) : Decoder × List Action :=
  let (acc, seen, need) := d.utf8
  if byte ≤ 0xBF then
    let acc := (acc <<< 6) % 2 ^ 32 ||| (byte &&& 0x3F).toNat
    if seen + 1 = need then ({ d with utf8 := (0, 0, 0) }, [.print (charFromU32 acc)])
    else ({ d with utf8 := (acc, seen + 1, need) }, [])
  else
    let (d, actions) := lead { d with utf8 := (0, 0, 0) } byte
    (d, .print replacementCharacter :: actions)

/-- A byte below `0x80`: it ends an open sequence and goes to the parser. -/
def ascii (d : Decoder) (byte : UInt8) : Decoder × List Action :=
  let (parser, action) := d.parser.feed byte
  if 0 < d.utf8.2.2 then
    ({ parser, utf8 := (0, 0, 0) }, .print replacementCharacter :: action.toList)
  else ({ d with parser }, action.toList)

def byte (d : Decoder) (byte : UInt8) : Decoder × List Action :=
  if byte < 0x80 then d.ascii byte
  else if d.utf8.2.2 = 0 then d.lead byte
  else d.continuation byte

/-- The decoder after some bytes, and the actions that it made of them. -/
def bytes : Decoder → List UInt8 → Decoder × List Action
  | d, [] => (d, [])
  | d, byte :: data =>
    let (d', actions) := d.byte byte
    let (d'', rest) := d'.bytes data
    (d'', actions ++ rest)

theorem bytes_cons (d : Decoder) (byte : UInt8) (data : List UInt8) :
    d.bytes (byte :: data) =
      (((d.byte byte).1.bytes data).1, (d.byte byte).2 ++ ((d.byte byte).1.bytes data).2) :=
  rfl

theorem bytes_append (d : Decoder) (data data' : List UInt8) :
    d.bytes (data ++ data') =
      (((d.bytes data).1.bytes data').1, (d.bytes data).2 ++ ((d.bytes data).1.bytes data').2) := by
  induction data generalizing d with
  | nil => rfl
  | cons byte data ih =>
    simp only [List.cons_append, bytes_cons, ih, List.append_assoc]

/-- No sequence is open. -/
structure Idle (d : Decoder) : Prop where
  parser : d.parser.state = .ground
  utf8 : d.utf8.2.2 = 0

end Decoder

/-! ## The screen -/

namespace Terminal

def decoder (t : Terminal) : Decoder := ⟨t.parser, t.utf8⟩

def withDecoder (t : Terminal) (d : Decoder) : Terminal :=
  { t with parser := d.parser, utf8 := d.utf8 }

/-- Execute actions one after the other. -/
def execute (t : Terminal) (actions : List Action) : Option Terminal :=
  actions.foldlM executeAction t

/-- An operation that does not look at the decoder. -/
def Blind (f : Terminal → Option Terminal) : Prop :=
  ∀ t d, f (t.withDecoder d) = (f t).map (·.withDecoder d)

namespace Blind

theorem seq {f g : Terminal → Option Terminal} (hf : Blind f) (hg : Blind g) :
    Blind fun t => f t >>= g := by
  intro t d
  change f (t.withDecoder d) >>= g = (f t >>= g).map _
  rw [hf]
  cases f t with
  | none => rfl
  | some t' => exact hg t' d

theorem update {f : Terminal → Terminal} (hf : ∀ t d, f (t.withDecoder d) = (f t).withDecoder d) :
    Blind fun t => some (f t) :=
  fun t d => congrArg some (hf t d)

theorem onBuffer (t : Terminal) (d : Decoder) (f : ScreenBuffer → Option ScreenBuffer) :
    (t.withDecoder d).onBuffer f = (t.onBuffer f).map (·.withDecoder d) := by
  change f t.buffer >>= _ = (f t.buffer >>= _).map _
  cases f t.buffer <;> rfl

theorem onCursor (t : Terminal) (d : Decoder) (f : Cursor → Option Cursor) :
    (t.withDecoder d).onCursor f = (t.onCursor f).map (·.withDecoder d) := by
  change f t.cursor >>= _ = (f t.cursor >>= _).map _
  cases f t.cursor <;> rfl

theorem scrollAfter (t : Terminal) (d : Decoder) (moved : Bool × Cursor)
    (scroll : ScreenBuffer → (n top bottom : ℕ) → Option ScreenBuffer) :
    (t.withDecoder d).scrollAfter moved scroll =
      (t.scrollAfter moved scroll).map (·.withDecoder d) := by
  unfold Terminal.scrollAfter
  dsimp only
  split
  · exact onBuffer { t with cursor := moved.2 } d _
  · rfl

theorem lineFeed : Blind Terminal.lineFeed := fun t d => scrollAfter t d _ _

theorem wrap : Blind Terminal.wrap := by
  intro t d
  unfold Terminal.wrap
  change (if t.cursor.wrapPending then _ else _) = _
  split
  · exact scrollAfter t d _ _
  · rfl

theorem print (ch : Char) : Blind fun t => t.print ch :=
  wrap.seq (seq (fun t d => onBuffer t d _) (update fun _ _ => rfl))

theorem executeControl (byte : UInt8) : Blind fun t => t.executeControl byte := by
  intro t d
  unfold Terminal.executeControl
  split
  · rfl
  split
  · exact onCursor t d _
  split
  · exact lineFeed t d
  split <;> rfl

theorem executeCsiPrivate (params : List ℕ) (finalByte : UInt8) :
    Blind fun t => t.executeCsiPrivate params finalByte := by
  intro t d
  unfold Terminal.executeCsiPrivate
  dsimp only
  split
  · rfl
  · rfl
  · exact onBuffer { t with cursor := t.cursor.save } d _
  · exact onCursor { t with buffer := t.buffer.disableAlternate } d _
  · rfl

theorem executeCsi (params : List ℕ) (finalByte : UInt8) (isPrivate : Bool) :
    Blind fun t => t.executeCsi params finalByte isPrivate := by
  intro t d
  unfold Terminal.executeCsi
  dsimp only
  split
  · exact executeCsiPrivate params finalByte t d
  split
  case h_2 | h_3 | h_5 | h_6 | h_7 | h_21 => exact onCursor t d _
  case h_8 =>
    unfold eraseDisplay
    split
    case h_5 => rfl
    all_goals exact onBuffer t d _
  case h_9 =>
    unfold eraseLine
    split
    case h_4 => rfl
    all_goals exact onBuffer t d _
  case h_14 =>
    change (executeSgr params t.style >>= _) = _
    cases executeSgr params t.style <;> rfl
  case h_15 =>
    unfold reportStatus
    split
    · change (responseCpr (t.cursor.row + 1) (t.cursor.col + 1) >>= _) = _
      cases responseCpr (t.cursor.row + 1) (t.cursor.col + 1) <;> rfl
    · rfl
    · rfl
  case h_16 => split <;> rfl
  case h_10 | h_11 | h_12 | h_13 | h_17 | h_18 | h_19 => exact onBuffer t d _
  all_goals rfl

theorem reset : Blind Terminal.reset :=
  seq (f := fun t => t.onBuffer ScreenBuffer.clear) (fun t d => onBuffer t d _)
    (update fun _ _ => rfl)

theorem executeEsc (byte : UInt8) : Blind fun t => t.executeEsc byte := by
  intro t d
  unfold Terminal.executeEsc
  dsimp only
  split
  · exact reset t d
  · rfl
  · exact onCursor t d _
  · exact lineFeed t d
  · exact lineFeed { t with cursor := t.cursor.carriageReturn } d
  · exact scrollAfter t d _ _
  · rfl

theorem executeAction (action : Action) : Blind fun t => t.executeAction action := by
  cases action with
  | print ch => exact print ch
  | execute byte => exact executeControl byte
  | csiDispatch params intermediates finalByte isPrivate =>
    exact executeCsi params finalByte isPrivate
  | oscDispatch s => exact update fun _ _ => rfl
  | escDispatch byte => exact executeEsc byte

theorem execute (actions : List Action) : Blind fun t => t.execute actions := by
  induction actions with
  | nil => exact fun _ _ => rfl
  | cons action actions ih => exact (executeAction action).seq ih

end Blind

/-! ## Feeding is decoding and executing -/

variable (t : Terminal) (byte : UInt8)

theorem execute_append (actions actions' : List Action) :
    t.execute (actions ++ actions') = t.execute actions >>= fun t => t.execute actions' :=
  List.foldlM_append

theorem execute_singleton (action : Action) :
    t.execute [action] = t.executeAction action :=
  bind_pure (m := Option) _

/-- What is left to do of some bytes: the actions, and the new state of the decoder. -/
def perform (t : Terminal) (r : Decoder × List Action) : Option Terminal :=
  (t.execute r.2).map (·.withDecoder r.1)

/-- A single action that is executed after the decoder has changed its state. -/
theorem executeAction_perform (d : Decoder) (action : Action) :
    (t.withDecoder d).executeAction action = t.perform (d, [action]) := by
  unfold perform
  rw [execute_singleton]
  exact Blind.executeAction action t d

theorem perform_bind (r : Decoder × List Action)
    (next : Decoder → Decoder × List Action) :
    (t.perform r >>= fun t => t.perform (next t.decoder)) =
      t.perform ((next r.1).1, r.2 ++ (next r.1).2) := by
  unfold perform
  rw [execute_append]
  cases t.execute r.2 with
  | none => rfl
  | some t' =>
    change ((t'.withDecoder r.1).execute (next r.1).2).map _ = (t'.execute (next r.1).2).map _
    rw [show (t'.withDecoder r.1).execute (next r.1).2 = _ from Blind.execute (next r.1).2 t' r.1,
      Option.map_map]
    rfl

theorem feedLead_eq :
    t.feedLead byte = t.perform (t.decoder.lead byte) := by
  unfold feedLead Decoder.lead
  split
  · rfl
  split
  · rfl
  split
  · rfl
  · exact executeAction_perform t t.decoder (.print replacementCharacter)

theorem feedParser_eq :
    t.feedParser byte = t.perform
      ({ t.decoder with parser := (t.parser.feed byte).1 }, (t.parser.feed byte).2.toList) := by
  unfold feedParser
  dsimp only
  cases (t.parser.feed byte).2 with
  | none => rfl
  | some action =>
    exact executeAction_perform t { t.decoder with parser := (t.parser.feed byte).1 } action

theorem feedContinuation_eq :
    t.feedContinuation byte = t.perform (t.decoder.continuation byte) := by
  have hprint : ∀ ch, { t with utf8 := (0, 0, 0) }.print ch =
      t.perform (⟨t.parser, 0, 0, 0⟩, [.print ch]) :=
    fun ch => executeAction_perform t ⟨t.parser, 0, 0, 0⟩ (.print ch)
  have hlead : (fun t => feedLead t byte) = fun t => t.perform (t.decoder.lead byte) :=
    funext fun t => feedLead_eq t byte
  unfold feedContinuation Decoder.continuation
  dsimp only [decoder]
  rw [hprint, hprint, hlead, perform_bind t _ (·.lead byte)]
  split
  · split <;> rfl
  · rfl

theorem breakSequence_eq :
    t.breakSequence = t.perform (if 0 < t.utf8.2.2 then
      (⟨t.parser, 0, 0, 0⟩, [.print replacementCharacter]) else (t.decoder, [])) := by
  unfold breakSequence
  split
  · exact executeAction_perform t ⟨t.parser, 0, 0, 0⟩ (.print replacementCharacter)
  · rfl

theorem feedByte_eq :
    t.feedByte byte = t.perform (t.decoder.byte byte) := by
  unfold feedByte Decoder.byte
  split
  · have hparser : (fun t => feedParser t byte) = fun t => t.perform
        ({ t.decoder with parser := (t.decoder.parser.feed byte).1 },
          (t.decoder.parser.feed byte).2.toList) :=
      funext fun t => feedParser_eq t byte
    rw [hparser, breakSequence_eq, perform_bind t _ fun d =>
      ({ d with parser := (d.parser.feed byte).1 }, (d.parser.feed byte).2.toList)]
    have hascii : t.decoder.ascii byte = if 0 < t.utf8.2.2 then
        ({ parser := (t.parser.feed byte).1, utf8 := (0, 0, 0) },
          .print replacementCharacter :: (t.parser.feed byte).2.toList)
      else ({ t.decoder with parser := (t.parser.feed byte).1 }, (t.parser.feed byte).2.toList) :=
      rfl
    rw [hascii]
    by_cases hneed : 0 < t.utf8.2.2
    · rw [if_pos hneed, if_pos hneed]
      rfl
    · rw [if_neg hneed, if_neg hneed]
      rfl
  · change (if t.utf8.2.2 = 0 then _ else _) = t.perform (if t.utf8.2.2 = 0 then _ else _)
    by_cases hneed : t.utf8.2.2 = 0
    · rw [if_pos hneed, if_pos hneed]
      exact feedLead_eq t byte
    · rw [if_neg hneed, if_neg hneed]
      exact feedContinuation_eq t byte

/-- **Decoding and executing.**  Feeding bytes executes the actions that the decoder makes of
them. -/
theorem feed_eq (data : List UInt8) :
    t.feed data = t.perform (t.decoder.bytes data) := by
  induction data generalizing t with
  | nil => rfl
  | cons byte data ih =>
    have hrest : (fun t : Terminal => t.feed data) = fun t => t.perform (t.decoder.bytes data) :=
      funext ih
    change t.feedByte byte >>= (fun t => t.feed data) = _
    rw [hrest, feedByte_eq, perform_bind t _ (·.bytes data)]
    rfl

theorem feed_of_execute {t t' : Terminal} {data : List UInt8}
    (h : t.execute (t.decoder.bytes data).2 = some t') :
    t.feed data = some (t'.withDecoder (t.decoder.bytes data).1) := by
  rw [feed_eq]
  unfold perform
  rw [h]
  rfl

end Terminal

end RacOS.RacTerm
