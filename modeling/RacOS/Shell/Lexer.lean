import RacOS.Shell.Ast

/-!
# The lexer of the shell

The tokens of `shell/src/token.rs` and the lexer of `shell/src/lexer.rs`.  The lexer goes over the
bytes of the source.  What it takes for one token is a front part of what is left of the source; the
position that goes with it moves byte by byte.
-/

namespace RacOS.Shell

/-! ## Tokens -/

structure Span where
  line : UInt32
  col : UInt32
  offset : ℕ
  len : ℕ

inductive TokenKind
  | word (s : Text)
  | assignmentWord (name value : Text)
  | pipe
  | andIf
  | orIf
  | semi
  | amp
  | newline
  | less
  | great
  | dGreat
  | lessAnd
  | greatAnd
  | ioNumber (n : UInt32)
  | lParen
  | rParen
  | lBrace
  | rBrace
  | if
  | then
  | else
  | elif
  | fi
  | while
  | do
  | done
  | for
  | in
  | case
  | esac
  | dSemi
  | function
  | singleQuoted (s : Text)
  | doubleQuoted (s : Text)
  | backquote (s : Text)
  | dollarParen (s : Text)
  | dollarBrace (s : Text)
  | dollarVar (s : Text)
  | globStar
  | globQuestion
  | globBracket (s : Text)
  | comment (s : Text)
  | eof
  deriving DecidableEq

structure Token where
  kind : TokenKind
  span : Span

/-- The reserved words with their tokens. -/
def keywords : List (Text × TokenKind) :=
  [("if".toList, .if), ("then".toList, .then), ("else".toList, .else), ("elif".toList, .elif),
    ("fi".toList, .fi), ("while".toList, .while), ("do".toList, .do), ("done".toList, .done),
    ("for".toList, .for), ("in".toList, .in), ("case".toList, .case), ("esac".toList, .esac),
    ("function".toList, .function)]

def keywordFromStr (s : Text) : Option TokenKind := keywords.lookup s

/-! ## The parts of a source -/

inductive LexMessage
  | unterminatedSingleQuote
  | unterminatedDoubleQuote
  | unterminatedDollarParen
  | unterminatedDollarBrace
  | unterminatedBackquote

structure LexerError where
  message : LexMessage
  line : UInt32
  col : UInt32

/-- The text up to the closing quote, and what is left after it. -/
def lexSingleQuoted : Text → Except LexMessage (Text × Text)
  | [] => .error .unterminatedSingleQuote
  | c :: rest =>
    if c = '\'' then .ok ([], rest)
    else do
      let (text, rest) ← lexSingleQuoted rest
      return (c :: text, rest)

def lexDoubleQuoted : Text → Except LexMessage (Text × Text)
  | [] => .error .unterminatedDoubleQuote
  | ['\\'] => .error .unterminatedDoubleQuote
  | '\\' :: c :: rest =>
    if c ∈ ['\\', '"', '$', '`'] then do
      let (text, rest) ← lexDoubleQuoted rest
      return (c :: text, rest)
    else if c = '\n' then lexDoubleQuoted rest
    else do
      let (text, rest) ← lexDoubleQuoted (c :: rest)
      return ('\\' :: text, rest)
  | c :: rest =>
    if c = '"' then .ok ([], rest)
    else do
      let (text, rest) ← lexDoubleQuoted rest
      return (c :: text, rest)

/-- The text up to the bracket that closes the first one; `depth` counts the inner ones. -/
def lexNested (opening closing : Char) (message : LexMessage) :
    ℕ → Text → Except LexMessage (Text × Text)
  | _, [] => .error message
  | depth, c :: rest =>
    if c = opening then do
      let (text, rest) ← lexNested opening closing message (depth + 1) rest
      return (c :: text, rest)
    else if c = closing then
      match depth with
      | 0 => .ok ([], rest)
      | depth + 1 => do
        let (text, rest) ← lexNested opening closing message depth rest
        return (c :: text, rest)
    else do
      let (text, rest) ← lexNested opening closing message depth rest
      return (c :: text, rest)

def lexBackquote : Text → Except LexMessage (Text × Text)
  | [] => .error .unterminatedBackquote
  | ['\\'] => .error .unterminatedBackquote
  | '\\' :: c :: rest => do
    let (text, rest) ← lexBackquote rest
    return (c :: text, rest)
  | c :: rest =>
    if c = '`' then .ok ([], rest)
    else do
      let (text, rest) ← lexBackquote rest
      return (c :: text, rest)

/-- The bytes that end an unquoted word. -/
def endsWord (c : Char) : Bool :=
  c ∈ [' ', '\t', '\n', '\r', '|', '&', ';', '(', ')', '<', '>', '#', '$']

/-- Continue an unquoted word, for as many rounds as there may be bytes.  A quote that is not closed
is left out, with all that follows it. -/
def lexWordRest : ℕ → Text → Text × Text
  | 0, rest => ([], rest)
  | _ + 1, [] => ([], [])
  | rounds + 1, c :: rest =>
    if endsWord c then ([], c :: rest)
    else if c = '\\' then
      let more := lexWordRest rounds rest.tail
      (rest.head?.toList ++ more.1, more.2)
    else if c = '\'' then
      match lexSingleQuoted rest with
      | .ok (s, rest) =>
        let more := lexWordRest rounds rest
        (s ++ more.1, more.2)
      | .error _ => ([], [])
    else if c = '"' then
      match lexDoubleQuoted rest with
      | .ok (s, rest) =>
        let more := lexWordRest rounds rest
        (s ++ more.1, more.2)
      | .error _ => ([], [])
    else
      let more := lexWordRest rounds rest
      (c :: more.1, more.2)

def isNameStart (c : Char) : Bool := c.isAlpha || c = '_'

def isNameChar (c : Char) : Bool := c.isAlphanum || c = '_'

/-- Keyword, assignment, or plain word. -/
def classifyWord (word : Text) : TokenKind :=
  let name := word.takeWhile (· ≠ '=')
  if '=' ∈ word ∧ name.head?.any isNameStart ∧ name.all isNameChar then
    .assignmentWord name (word.drop (name.length + 1))
  else
    match keywordFromStr word with
    | some kw => kw
    | none =>
      if word = ['{'] then .lBrace
      else if word = ['}'] then .rBrace
      else .word word

/-- A word that starts with the given character. -/
def lexWord (first : Char) (rest : Text) : TokenKind × Text :=
  let more := lexWordRest (rest.length + 1) rest
  (classifyWord (first :: more.1), more.2)

/-- What follows a dollar. -/
def lexDollar (rest : Text) : Except LexMessage (TokenKind × Text) :=
  match rest with
  | '(' :: rest => do
    let (text, rest) ← lexNested '(' ')' .unterminatedDollarParen 0 rest
    return (.dollarParen text, rest)
  | '{' :: rest => do
    let (text, rest) ← lexNested '{' '}' .unterminatedDollarBrace 0 rest
    return (.dollarBrace text, rest)
  | c :: tail =>
    if isNameStart c then .ok (.dollarVar (rest.takeWhile isNameChar), rest.dropWhile isNameChar)
    else if c ∈ ['?', '$', '!', '#', '@', '*'] ∨ c.isDigit then .ok (.dollarVar [c], tail)
    else .ok (lexWord '$' rest)
  | [] => .ok (lexWord '$' rest)

def digitsValue (digits : Text) : ℕ := digits.foldl (fun n c => 10 * n + (c.toNat - 48)) 0

/-- A run of digits right before a redirection. -/
def ioNumberAhead (rest : Text) : Bool :=
  rest.head?.any Char.isDigit && (rest.dropWhile Char.isDigit).head?.any (· ∈ ['<', '>'])

def lexIoNumber (rest : Text) : TokenKind × Text :=
  let digits := rest.takeWhile Char.isDigit
  let n := digitsValue digits
  (if n < 2 ^ 32 then .ioNumber (UInt32.ofNat n) else .word digits, rest.dropWhile Char.isDigit)

/-- The token that starts with a byte, if any, and what is left after it. -/
def lexToken (ch : Char) (rest : Text) : Except LexMessage (Option TokenKind × Text) :=
  match ch with
  | '\n' => .ok (some .newline, rest)
  | '#' => .ok (some (.comment (rest.takeWhile (· ≠ '\n'))), rest.dropWhile (· ≠ '\n'))
  | '|' =>
    match rest with
    | '|' :: rest => .ok (some .orIf, rest)
    | _ => .ok (some .pipe, rest)
  | '&' =>
    match rest with
    | '&' :: rest => .ok (some .andIf, rest)
    | _ => .ok (some .amp, rest)
  | ';' =>
    match rest with
    | ';' :: rest => .ok (some .dSemi, rest)
    | _ => .ok (some .semi, rest)
  | '(' => .ok (some .lParen, rest)
  | ')' => .ok (some .rParen, rest)
  | '<' =>
    match rest with
    | '&' :: rest => .ok (some .lessAnd, rest)
    | _ => .ok (some .less, rest)
  | '>' =>
    match rest with
    | '>' :: rest => .ok (some .dGreat, rest)
    | '&' :: rest => .ok (some .greatAnd, rest)
    | _ => .ok (some .great, rest)
  | '\'' => do
    let (text, rest) ← lexSingleQuoted rest
    return (some (.singleQuoted text), rest)
  | '"' => do
    let (text, rest) ← lexDoubleQuoted rest
    return (some (.doubleQuoted text), rest)
  | '$' => do
    let (kind, rest) ← lexDollar rest
    return (some kind, rest)
  | '`' => do
    let (text, rest) ← lexBackquote rest
    return (some (.backquote text), rest)
  | '\\' =>
    match rest with
    | [] =>
      let (kind, rest) := lexWord '\\' []
      .ok (some kind, rest)
    | c :: rest =>
      -- a continued line is no token
      if c = '\n' then .ok (none, rest)
      else
        let (kind, rest) := lexWord c rest
        .ok (some kind, rest)
  | _ =>
    let (kind, rest) :=
      if ioNumberAhead (ch :: rest) then lexIoNumber (ch :: rest) else lexWord ch rest
    .ok (some kind, rest)

/-! ## The lexer -/

/-- What is left of the source, and the position. -/
structure Lexer where
  rest : Text
  pos : ℕ
  line : UInt32
  col : UInt32

namespace Lexer

def new (source : Text) : Lexer := ⟨asBytes source, 0, 1, 1⟩

def advance (l : Lexer) : Lexer :=
  match l.rest with
  | [] => l
  | c :: rest =>
    if c = '\n' then ⟨rest, l.pos + 1, l.line + 1, 1⟩
    else ⟨rest, l.pos + 1, l.line, l.col + 1⟩

def skip : ℕ → Lexer → Lexer
  | 0, l => l
  | n + 1, l => l.advance.skip n

/-- Advance until the given text is left. -/
def skipTo (rest : Text) (l : Lexer) : Lexer := l.skip (l.rest.length - rest.length)

def skipWhitespace (l : Lexer) : Lexer :=
  l.skipTo (l.rest.dropWhile fun c => c ∈ [' ', '\t', '\r'])

def spanFrom (start l : Lexer) : Span := ⟨start.line, start.col, start.pos, l.pos - start.pos⟩

/-- The loop of `tokenize`.  A round takes a byte at least, so that there are enough rounds if there
are more of them than bytes. -/
def tokens : ℕ → Lexer → Except LexerError (List Token)
  | 0, _ => .ok []
  | rounds + 1, l =>
    let start := l.skipWhitespace
    match start.rest with
    | [] => .ok [⟨.eof, spanFrom start start⟩]
    | ch :: rest =>
      match lexToken ch rest with
      | .error message =>
        -- the error is at the end of the source
        let last := start.skipTo []
        .error ⟨message, last.line, last.col⟩
      | .ok (none, rest) => tokens rounds (start.skipTo rest)
      | .ok (some kind, rest) => do
        let l := start.skipTo rest
        let more ← tokens rounds l
        return ⟨kind, spanFrom start l⟩ :: more

end Lexer

def tokenize (source : Text) : Except LexerError (List Token) :=
  let l := Lexer.new source
  l.tokens (l.rest.length + 1)

/-! ## Runs of the lexer -/

variable {toks : List (TokenKind × ℕ × ℕ)}

namespace Lexer

variable {l : Lexer}

theorem advance_rest (l : Lexer) : l.advance.rest = l.rest.tail := by
  rw [advance]
  split
  · rename_i h
    rw [h, List.tail_nil]
  · rename_i c rest h
    rw [h, List.tail_cons]
    split <;> rfl

variable {c : Char} {rest : Text}

theorem advance_pos (h : l.rest = c :: rest) : l.advance.pos = l.pos + 1 := by
  rw [advance, h]
  dsimp only
  split <;> rfl

theorem skip_append (front rest : Text) (h : l.rest = front ++ rest) :
    (l.skip front.length).rest = rest ∧ (l.skip front.length).pos = l.pos + front.length := by
  induction front generalizing l with
  | nil => exact ⟨h, rfl⟩
  | cons c front ih =>
    have hadvance : l.advance.rest = front ++ rest := by rw [advance_rest, h]; rfl
    obtain ⟨hrest, hpos⟩ := ih hadvance
    refine ⟨hrest, ?_⟩
    rw [List.length_cons, skip, hpos, advance_pos h]
    omega

/-- Taking a front part of the source moves the position by its length. -/
theorem skipTo_append (front rest : Text) (h : l.rest = front ++ rest) :
    (l.skipTo rest).rest = rest ∧ (l.skipTo rest).pos = l.pos + front.length := by
  have hlength : l.rest.length - rest.length = front.length := by
    rw [h, List.length_append, Nat.add_sub_cancel]
  rw [skipTo, hlength]
  exact skip_append front rest h

theorem skipWhitespace_of_head (h : l.rest = c :: rest) (hc : c ∉ [' ', '\t', '\r']) :
    l.skipWhitespace = l := by
  rw [skipWhitespace, h, List.dropWhile_cons_of_neg (by simpa using hc), skipTo, h, Nat.sub_self,
    skip]

theorem tokens_nil (h : l.rest = []) (rounds : ℕ) :
    l.tokens (rounds + 1) = .ok [⟨.eof, ⟨l.line, l.col, l.pos, 0⟩⟩] := by
  have hskip : l.skipWhitespace = l := by
    rw [skipWhitespace, h, List.dropWhile_nil, skipTo, h, Nat.sub_self, skip]
  rw [tokens, hskip, h, spanFrom, Nat.sub_self]

/-- A text is a sequence of tokens, each given with its kind, offset and length, and of blanks. -/
inductive Lexed : ℕ → Text → List (TokenKind × ℕ × ℕ) → Prop
  | nil (pos : ℕ) : Lexed pos [] []
  | blank {pos : ℕ} {rest : Text} {toks : List (TokenKind × ℕ × ℕ)}
      (hrest : Lexed (pos + 1) rest toks) : Lexed pos (' ' :: rest) toks
  | token {pos : ℕ} {ch : Char} {tail rest : Text} {kind : TokenKind}
      {toks : List (TokenKind × ℕ × ℕ)} (hch : ch ∉ [' ', '\t', '\r'])
      (hlex : lexToken ch (tail ++ rest) = .ok (some kind, rest))
      (hrest : Lexed (pos + (tail.length + 1)) rest toks) :
      Lexed pos (ch :: (tail ++ rest)) ((kind, pos, tail.length + 1) :: toks)

theorem tokens_blank (h : l.rest = ' ' :: rest) (rounds : ℕ) :
    l.tokens rounds = l.advance.tokens rounds := by
  cases rounds with
  | zero => rfl
  | succ rounds =>
    have hadvance : l.advance.rest = rest := by rw [advance_rest, h, List.tail_cons]
    have hskip : l.skipWhitespace = l.advance.skipWhitespace := by
      have hle := (List.dropWhile_sublist (fun c => c ∈ [' ', '\t', '\r']) (l := rest)).length_le
      rw [skipWhitespace, skipWhitespace, hadvance, h, List.dropWhile_cons_of_pos (by decide),
        skipTo, skipTo, hadvance, h, List.length_cons, Nat.succ_sub hle, skip]
    rw [tokens, tokens, hskip]

/-- The tokens of a text that is one sequence of tokens, and the last one. -/
theorem Lexed.tokens {pos : ℕ} {text : Text} (h : Lexed pos text toks) (hrest : l.rest = text)
    (hpos : l.pos = pos) {rounds : ℕ} (hrounds : text.length < rounds) :
    ∃ tokens eof, l.tokens rounds = .ok (tokens ++ [eof]) ∧ eof.kind = .eof ∧
      tokens.map (fun t => (t.kind, t.span.offset, t.span.len)) = toks := by
  induction h generalizing l rounds with
  | nil pos =>
    cases rounds with
    | zero => exact absurd hrounds (Nat.not_lt_zero _)
    | succ rounds => exact ⟨[], _, tokens_nil hrest rounds, rfl, rfl⟩
  | @blank pos rest toks hblank ih =>
    rw [tokens_blank hrest]
    refine ih ?_ ?_ (Nat.lt_of_succ_lt hrounds)
    · rw [advance_rest, hrest, List.tail_cons]
    · rw [advance_pos hrest, hpos]
  | @token pos ch tail rest kind toks hch hlex htoks ih =>
    obtain ⟨hafter, hpos'⟩ := skipTo_append (ch :: tail) rest hrest
    cases rounds with
    | zero => exact absurd hrounds (Nat.not_lt_zero _)
    | succ rounds =>
      rw [List.length_cons, List.length_append] at hrounds
      have hlt : rest.length < rounds := by omega
      obtain ⟨more, eof, hmore, heof, hkinds⟩ := ih hafter (by rw [hpos', hpos]; rfl) hlt
      refine ⟨⟨kind, spanFrom l (l.skipTo rest)⟩ :: more, eof, ?_, heof, ?_⟩
      · rw [Lexer.tokens, skipWhitespace_of_head hrest hch, hrest]
        dsimp only
        rw [hlex]
        dsimp only
        rw [hmore]
        rfl
      · rw [List.map_cons, hkinds, spanFrom, hpos', hpos, Nat.add_sub_cancel_left]
        rfl

end Lexer

theorem tokenize_of_lexed {source : Text} (h : Lexer.Lexed 0 (asBytes source) toks) :
    ∃ tokens eof, tokenize source = .ok (tokens ++ [eof]) ∧ eof.kind = .eof ∧
      tokens.map (fun t => (t.kind, t.span.offset, t.span.len)) = toks :=
  h.tokens rfl rfl (Nat.lt_succ_self _)

end RacOS.Shell
