import RacOS.Lib.Program
import RacOS.Shell.Lexer

/-!
# Words of a source

The part of the parser of `shell/src/parser.rs` that puts a word together: tokens that follow each
other without a blank are the parts of one word.
-/

namespace RacOS.Shell

inductive ParseMessage
  | expectedWord (got : TokenKind)

structure ParseError where
  message : ParseMessage
  line : UInt32
  col : UInt32

/-- The tokens that are left, and the last one of all. -/
structure Parser where
  rest : List Token
  last : Token

namespace Parser

def peek (p : Parser) : TokenKind := (p.rest.head?.map Token.kind).getD .eof

def currentToken (p : Parser) : Token := p.rest.head?.getD p.last

def advance (p : Parser) : Parser := { p with rest := p.rest.tail }

def error (message : ParseMessage) (p : Parser) : ParseError :=
  ⟨message, p.currentToken.span.line, p.currentToken.span.col⟩

end Parser

abbrev ParserM := EStateM ParseError Parser

namespace ParserM

def advance : ParserM Token := do
  let p ← get
  set p.advance
  return p.currentToken

def fail {α : Type} (message : ParseMessage) : ParserM α := do
  throw ((← get).error message)

end ParserM

open ParserM (advance fail)

/-- The part of a word that a token is. -/
def wordPart : TokenKind → Option WordPart
  | .word s => some (.literal s)
  | .assignmentWord name value => some (.literal (name ++ '=' :: value))
  | .singleQuoted s => some (.singleQuoted s)
  | .doubleQuoted s => some (.doubleQuoted s)
  | .dollarVar s => some (.variable s)
  | .dollarParen s => some (.commandSub s)
  | .dollarBrace s => some (.braceExpansion s)
  | .backquote s => some (.commandSub s)
  | .globStar => some (.glob .star)
  | .globQuestion => some (.glob .question)
  | .globBracket s => some (.glob (.bracket s))
  | _ => none

def keywordSpelling (kind : TokenKind) : Option Text :=
  (keywords.find? (·.2 = kind)).map Prod.fst

/-- The parts of the tokens that begin where the one before them ends, and the other tokens. -/
def mergeTokens : ℕ → List Token → List WordPart × List Token
  | _, [] => ([], [])
  | wordEnd, tok :: rest =>
    if tok.span.offset = wordEnd then
      match wordPart tok.kind with
      | some part =>
        let (parts, rest) := mergeTokens (tok.span.offset + tok.span.len) rest
        (part :: parts, rest)
      | none => ([], tok :: rest)
    else ([], tok :: rest)

def mergeAdjacent (wordEnd : ℕ) : ParserM (List WordPart) := do
  let p ← get
  let (parts, rest) := mergeTokens wordEnd p.rest
  set { p with rest }
  return parts

/-- The part that starts a word; a keyword may be taken as a literal. -/
def firstPart (allowKeywords : Bool) (kind : TokenKind) : Option WordPart :=
  match wordPart kind with
  | some part => some part
  | none => if allowKeywords then (keywordSpelling kind).map .literal else none

def parseWordInner (allowKeywords : Bool) : ParserM Word := do
  let first ← advance
  match firstPart allowKeywords first.kind with
  | none => fail (.expectedWord first.kind)
  | some part =>
    let parts ← mergeAdjacent (first.span.offset + first.span.len)
    return ⟨part :: parts⟩

def parseWord : ParserM Word := parseWordInner false

/-- Lex and parse a source that is one word: there is nothing after the word. -/
def readWord (source : Text) : Option Word :=
  match tokenize source with
  | .error _ => none
  | .ok tokens =>
    match parseWord ⟨tokens, tokens.getLastD ⟨.eof, ⟨0, 0, 0, 0⟩⟩⟩ with
    | .ok word p => if p.peek = .eof then some word else none
    | .error _ _ => none

/-! ## The word of known tokens -/

variable {kind : TokenKind} {part : WordPart} {parts : List WordPart} {tok : Token}
  {tokens rest rest' : List Token} {toks : List (TokenKind × ℕ × ℕ)} {wordEnd len : ℕ}

/-- Tokens, given as kind, offset and length, that begin where the one before them ends and are the
parts of a word. -/
inductive Adjacent : ℕ → List (TokenKind × ℕ × ℕ) → List WordPart → Prop
  | nil (wordEnd : ℕ) : Adjacent wordEnd [] []
  | cons {kind : TokenKind} {offset len : ℕ} {toks : List (TokenKind × ℕ × ℕ)} {part : WordPart}
      {parts : List WordPart} (hpart : wordPart kind = some part)
      (hrest : Adjacent (offset + len) toks parts) :
      Adjacent offset ((kind, offset, len) :: toks) (part :: parts)

/-- Nothing is merged from a token that is no part of a word. -/
theorem mergeTokens_of_none (hpart : wordPart tok.kind = none) :
    mergeTokens wordEnd (tok :: rest) = ([], tok :: rest) := by
  rw [mergeTokens, hpart]
  split <;> rfl

theorem Adjacent.mergeTokens (h : Adjacent wordEnd toks parts)
    (htoks : tokens.map (fun t => (t.kind, t.span.offset, t.span.len)) = toks) {eof : Token}
    (heof : eof.kind = .eof) : mergeTokens wordEnd (tokens ++ [eof]) = (parts, [eof]) := by
  induction h generalizing tokens with
  | nil wordEnd =>
    rw [List.map_eq_nil_iff.mp htoks]
    exact mergeTokens_of_none (by rw [heof]; rfl)
  | cons hpart _ ih =>
    obtain ⟨tok, tokens, rfl, htok, htokens⟩ := List.map_eq_cons_iff.mp htoks
    obtain ⟨rfl, rfl, rfl⟩ := Prod.mk.inj htok |>.imp_right Prod.mk.inj
    rw [List.cons_append, Shell.mergeTokens, if_pos rfl, hpart, ih htokens]

theorem parseWord_run (hpart : wordPart tok.kind = some part)
    (hmerge : mergeTokens (tok.span.offset + tok.span.len) rest = (parts, rest')) (last : Token) :
    parseWord ⟨tok :: rest, last⟩ = .ok ⟨part :: parts⟩ ⟨rest', last⟩ := by
  have hadvance : advance ⟨tok :: rest, last⟩ = .ok tok ⟨rest, last⟩ := rfl
  have hfirst : firstPart false tok.kind = some part := by rw [firstPart, hpart]
  have hparts : mergeAdjacent (tok.span.offset + tok.span.len) ⟨rest, last⟩ =
      .ok parts ⟨rest', last⟩ := by
    rw [mergeAdjacent, Program.get_bind_run]
    dsimp only
    rw [hmerge]
    rfl
  rw [parseWord, parseWordInner, Program.bind_of_ok hadvance, hfirst]
  dsimp only
  rw [Program.bind_of_ok hparts]
  rfl

variable {source : Text}

/-- Adjacent tokens are read as a word. -/
theorem readWord_of_adjacent (hlex : Lexer.Lexed 0 (asBytes source) ((kind, 0, len) :: toks))
    (hpart : wordPart kind = some part) (hparts : Adjacent len toks parts) :
    readWord source = some ⟨part :: parts⟩ := by
  obtain ⟨tokens, eof, htokenize, heof, htoks⟩ := tokenize_of_lexed hlex
  obtain ⟨tok, tokens, rfl, htok, htokens⟩ := List.map_eq_cons_iff.mp htoks
  obtain ⟨rfl, hoffset, rfl⟩ := Prod.mk.inj htok |>.imp_right Prod.mk.inj
  have hmerge : mergeTokens (tok.span.offset + tok.span.len) (tokens ++ [eof]) =
      (parts, [eof]) := by
    rw [hoffset, Nat.zero_add, hparts.mergeTokens htokens heof]
  rw [readWord, htokenize]
  dsimp only
  rw [List.cons_append, parseWord_run hpart hmerge]
  exact if_pos heof

/-- What is no part of a word is left after it. -/
theorem readWord_of_none {kind' : TokenKind} {len' offset : ℕ}
    (hlex : Lexer.Lexed 0 (asBytes source) [(kind, 0, len), (kind', offset, len')])
    (hpart : wordPart kind = some part) (hpart' : wordPart kind' = none) (hne : kind' ≠ .eof) :
    readWord source = none := by
  obtain ⟨tokens, eof, htokenize, heof, htoks⟩ := tokenize_of_lexed hlex
  obtain ⟨tok, tokens, rfl, htok, htokens⟩ := List.map_eq_cons_iff.mp htoks
  obtain ⟨tok', tokens, rfl, htok', htokens⟩ := List.map_eq_cons_iff.mp htokens
  obtain rfl := List.map_eq_nil_iff.mp htokens
  obtain ⟨rfl, -⟩ := Prod.mk.inj htok
  obtain ⟨rfl, -⟩ := Prod.mk.inj htok'
  rw [readWord, htokenize]
  dsimp only
  rw [List.cons_append, List.cons_append, parseWord_run hpart (mergeTokens_of_none hpart')]
  exact if_neg hne

theorem readWord_of_none_first (hlex : Lexer.Lexed 0 (asBytes source) ((kind, 0, len) :: toks))
    (hpart : wordPart kind = none) : readWord source = none := by
  obtain ⟨tokens, eof, htokenize, -, htoks⟩ := tokenize_of_lexed hlex
  obtain ⟨tok, tokens, rfl, htok, -⟩ := List.map_eq_cons_iff.mp htoks
  obtain ⟨rfl, -⟩ := Prod.mk.inj htok
  have hadvance : ∀ last, advance ⟨tok :: (tokens ++ [eof]), last⟩ =
      .ok tok ⟨tokens ++ [eof], last⟩ := fun _ => rfl
  have hfirst : firstPart false tok.kind = none := by
    rw [firstPart, hpart]
    rfl
  rw [readWord, htokenize]
  dsimp only
  rw [List.cons_append, parseWord, parseWordInner, Program.bind_of_ok (hadvance _), hfirst]
  rfl

end RacOS.Shell
