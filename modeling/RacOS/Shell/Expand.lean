import Mathlib.Data.List.DropRight
import RacOS.Shell.Env
import RacOS.Shell.Glob
import RacOS.Shell.Lexer
import RacOS.Vfs.Pipe

/-!
# Expansion of words

The model of `shell/src/expand.rs`: parameters, command substitution, brace lists and pathnames.
Functions that push to a string take the string and return it; `none` stands for a panic.  What the
shell asks the system for is given by a `World`: the bytes of a directory, and the writes that a
command makes to its standard output.
-/

namespace RacOS.Shell

open RacOS.Vfs (Pipe PipeEnd)

/-- What the system answers.  For a directory that cannot be opened or read there are no bytes. -/
structure World where
  getdents : Text → Option (List UInt8)
  writes : Text → Env → List (List UInt8)

/-! ## Parameters -/

def formatI32 (val : Int32) : Text :=
  if val < 0 then '-' :: Nat.toDigits 10 val.toInt.natAbs else Nat.toDigits 10 val.toInt.natAbs

/-- The index that decimal digits denote, as a machine word. -/
def parseIndex (s : Text) : ℕ := s.foldl (fun n c => (n * 10 + (c.toNat - 48)) % 2 ^ 64) 0

def expandVariable (name : Text) (env : Env) (out : Text) : Text :=
  match name with
  | ['?'] => out ++ formatI32 env.lastStatus
  | ['$'] => out ++ formatI32 env.shellPid
  | ['#'] => out ++ formatI32 (Int32.ofNat env.positional.length)
  | ['0'] => out ++ env.arg0
  | ['@'] => out ++ [' '].intercalate env.positional
  | ['*'] => out ++ [' '].intercalate env.positional
  | _ =>
    if name ≠ [] ∧ name.all Char.isDigit then
      match parseIndex name with
      | 0 => out
      | idx + 1 => out ++ env.positional.getD idx []
    else out ++ (env.get name).getD []

/-- The inside of `${...}`.  The character after a colon is sliced off as one byte. -/
def expandParamBrace (content : Text) (env : Env) (out : Text) : Option Text :=
  match content with
  | '#' :: rest =>
    some (out ++ formatI32 (Int32.ofNat (asBytes (expandVariable rest env [])).length))
  | _ =>
    let name := content.takeWhile (· ≠ ':')
    match content.drop (name.length + 1) with
    | [] => some (expandVariable content env out)
    | op :: word =>
      let val := expandVariable name env []
      if 128 ≤ op.toNat then none
      else
        match op with
        | '-' => some (out ++ if val = [] then word else val)
        | '+' => some (out ++ if val = [] then [] else word)
        | '?' => some (out ++ val)
        | _ => some (expandVariable content env out)

/-- The text whose bytes these are. -/
def ofBytes (bytes : Text) : Text :=
  (Utf8.decode (bytes.map fun c => UInt8.ofNat c.toNat)).getD []

/-- The loop of `expand_dollar_in_string` over bytes. -/
def dollarLoop (env : Env) : ℕ → Text → Text → Option Text
  | 0, _, out => some out
  | _, [], out => some out
  | _, ['$'], out => some (out ++ ['$'])
  | rounds + 1, '$' :: c :: rest, out =>
    if c = '{' then do
      let out ← expandParamBrace (ofBytes (rest.takeWhile (· ≠ '}'))) env out
      dollarLoop env rounds ((rest.dropWhile (· ≠ '}')).drop 1) out
    else if c ∈ ['?', '$', '#', '@', '*', '!'] ∨ c.isDigit then
      dollarLoop env rounds rest (expandVariable [c] env out)
    else
      let name := (c :: rest).takeWhile isNameChar
      dollarLoop env rounds ((c :: rest).dropWhile isNameChar)
        (if name = [] then out ++ ['$'] else expandVariable name env out)
  | rounds + 1, '\\' :: c :: rest, out =>
    dollarLoop env rounds rest
      (if c ∈ ['\\', '"', '$', '`'] then out ++ [c]
        else if c = 'n' then out ++ ['\n']
        else out ++ ['\\', c])
  | rounds + 1, c :: rest, out => dollarLoop env rounds rest (out ++ [c])

def expandDollarInString (s : Text) (env : Env) (out : Text) : Option Text :=
  dollarLoop env ((asBytes s).length + 1) (asBytes s) out

/-! ## Command substitution -/

/-- Read what is in the pipe in pieces of 256 bytes.  A piece that is not valid UTF-8 is left
out. -/
def drainPipe : ℕ → Pipe → Text → Text
  | 0, _, out => out
  | rounds + 1, pipe, out =>
    match PipeEnd.readEnd.read 256 pipe.buffer with
    | some (.ok bytes, _) =>
      if bytes = [] then out
      else drainPipe rounds (pipe.step (.read .readEnd 256)) (out ++ (Utf8.decode bytes).getD [])
    | _ => out

/-- The pipe after the command has run, without its writer. -/
def commandPipe (world : World) (cmd : Text) (env : Env) : Pipe :=
  (Runs.run Pipe.step ((world.writes cmd env).map (.write .writeEnd)) Pipe.create).drop .writeEnd

/-- Run a command with its output to a pipe, read the pipe, and strip newlines at the end. -/
def expandCommandSub (world : World) (cmd : Text) (env : Env) (out : Text) : Text :=
  (drainPipe (Vfs.pipeCapacity + 1) (commandPipe world cmd env) out).rdropWhile (· = '\n')

/-! ## Words -/

def globText : GlobPattern → Text
  | .star => ['*']
  | .question => ['?']
  | .bracket s => '[' :: s ++ [']']

def expandPart (world : World) (env : Env) (out : Text) : WordPart → Option Text
  | .literal s => some (out ++ s)
  | .singleQuoted s => some (out ++ s)
  | .doubleQuoted s => expandDollarInString s env out
  | .variable name => some (expandVariable name env out)
  | .commandSub cmd => some (expandCommandSub world cmd env out)
  | .braceExpansion s => expandParamBrace s env out
  | .glob pattern => some (out ++ globText pattern)

def expandTilde (env : Env) (result : Text) : Text :=
  let home := (env.get "HOME".toList).getD ['/']
  match result with
  | ['~'] => home
  | '~' :: '/' :: rest => home ++ '/' :: rest
  | _ => result

def expandWord (world : World) (word : Word) (env : Env) : Option Text :=
  (expandTilde env) <$> word.parts.foldlM (expandPart world env) []

/-! ## Pathnames -/

/-- The names in a directory buffer: ten bytes, the last one the length of the name after them. -/
def decodeEntries : ℕ → List UInt8 → List Text
  | 0, _ => []
  | rounds + 1, buf =>
    if buf.length < 10 then []
    else
      let nameLen := (buf.getD 9 0).toNat
      if buf.length < 10 + nameLen then []
      else
        let name := ((buf.drop 10).take nameLen).takeWhile (· ≠ 0)
        let names := decodeEntries rounds (buf.drop (10 + nameLen))
        match name, Utf8.decode name with
        | _ :: _, some name => name :: names
        | _, _ => names

def entryNames (buf : List UInt8) : List Text := decodeEntries buf.length buf

/-- The directory of a pattern, and its last component. -/
def splitPathAndPattern (pattern : Text) : Text × Text :=
  (pattern.take (pattern.length - (pattern.rtakeWhile (· ≠ '/')).length - 1),
    pattern.rtakeWhile (· ≠ '/'))

def fullPath (dir name : Text) : Text :=
  if dir.getLast? = some '/' then dir ++ name else dir ++ '/' :: name

/-- The sorted matches of a pattern, if there are any. -/
def globExpand (world : World) (pattern : Text) : Option (Option (List Text)) := do
  let (dirPath, globPart) := splitPathAndPattern pattern
  let dir := if dirPath = [] then ['.'] else dirPath
  match world.getdents dir with
  | none => return none
  | some buf =>
    let names ← (entryNames buf).filterM fun name => globMatch name globPart
    if names = [] then return none
    else return some ((names.map (fullPath dir)).mergeSort fun a b => a ≤ b)

def expandSingleWithGlob (world : World) (pattern : Text) : Option (List Text) :=
  return (← globExpand world pattern).getD [pattern]

/-- The pattern that the parts of a word with wildcards make. -/
def patternPart (world : World) (env : Env) (pattern : Text) : WordPart → Option Text
  | .literal s => some (pattern ++ s)
  | .singleQuoted s => some (pattern ++ s)
  | .doubleQuoted s => some (pattern ++ s)
  | .variable name => some (pattern ++ (env.get name).getD [])
  | .commandSub cmd => some (pattern ++ expandCommandSub world cmd env [])
  | .braceExpansion s => expandParamBrace s env pattern
  | .glob glob => some (pattern ++ globText glob)

def reconstructPattern (world : World) (word : Word) (env : Env) : Option Text :=
  word.parts.foldlM (patternPart world env) []

/-! ## Brace lists -/

/-- The position of the first brace that is looked at: a backslash hides the next character, and a
closing brace before it one opening brace. -/
def findBraceExpansion (s : Text) : Option ℕ := go 0 false 0 s
where
  go (depth : ℤ) (inQuote : Bool) (i : ℕ) : Text → Option ℕ
    | [] => none
    | c :: rest =>
      if c = '\\' then go depth true (i + 1) rest
      else if c = '{' ∧ !inQuote then
        if depth = 0 then some i else go (depth + 1) inQuote (i + 1) rest
      else if c = '}' ∧ !inQuote then go (depth - 1) inQuote (i + 1) rest
      else go depth false (i + 1) rest

/-- The end of a brace group that starts the text, counted from there.  Where the group is not
closed it is the last inner opening brace, or the start itself. -/
def braceEnd (depth i endPos : ℕ) : Text → ℕ
  | [] => endPos
  | c :: rest =>
    if c = '{' then braceEnd (depth + 1) (i + 1) i rest
    else if c = '}' then
      if depth = 1 then i else braceEnd (depth - 1) (i + 1) endPos rest
    else braceEnd depth (i + 1) endPos rest

/-- What is before, in and after the group at a position.  The slice of a group that ends where it
starts panics. -/
def extractBrace (s : Text) (startPos : ℕ) : Option (Text × Text × Text) :=
  let group := s.drop startPos
  match braceEnd 0 0 0 group with
  | 0 => none
  | len + 1 => some (s.take startPos, (group.drop 1).take len, group.drop (len + 2))

/-- The loop of `parse_brace_expansion`. -/
def braceAlternatives (depth : ℕ) (alternatives : List Text) (current : Text) :
    Text → List Text × Text
  | [] => (alternatives, current)
  | c :: rest =>
    if c = '{' then braceAlternatives (depth + 1) alternatives (current ++ [c]) rest
    else if c = '}' then
      match depth with
      | 0 => braceAlternatives 0 alternatives current rest
      | depth + 1 => braceAlternatives depth alternatives (current ++ [c]) rest
    else if c = ',' ∧ depth = 0 then
      if current ≠ [] ∨ alternatives = [] then
        braceAlternatives depth (alternatives ++ [current]) [] rest
      else braceAlternatives depth alternatives current rest
    else braceAlternatives depth alternatives (current ++ [c]) rest

def parseBraceExpansion (content : Text) : Option (List Text) :=
  let (alternatives, current) := braceAlternatives 0 [] [] content
  let alternatives :=
    if current ≠ [] ∨ alternatives ≠ [] then alternatives ++ [current] else alternatives
  if alternatives = [] then none
  else if alternatives.length = 1 ∧ ',' ∉ content then none
  else some alternatives

/-! ## Lists of words -/

/-- The text that is searched for braces: without variables, substitutions and wildcards. -/
def completePart (env : Env) (word : Text) : WordPart → Option Text
  | .literal s => some (word ++ s)
  | .singleQuoted s => some (word ++ s)
  | .doubleQuoted s => some (word ++ s)
  | .braceExpansion s => expandParamBrace s env word
  | _ => some word

def completeWord (word : Word) (env : Env) : Option Text :=
  word.parts.foldlM (completePart env) []

/-- The alternatives of the brace group of a text, each with what is around the group. -/
def braceWords (word : Text) : Option (Option (List Text)) :=
  match findBraceExpansion word with
  | none => some none
  | some pos => do
    let (before, content, after) ← extractBrace word pos
    return (parseBraceExpansion content).map fun alternatives =>
      alternatives.map fun alt => before ++ alt ++ after

def isGlob : WordPart → Bool
  | .glob _ => true
  | _ => false

def isPureUnquotedExpansion (word : Word) : Bool :=
  match word.parts with
  | [.variable _] => true
  | [.braceExpansion _] => true
  | [.commandSub _] => true
  | _ => false

def expandWordList (world : World) (word : Word) (env : Env) : Option (List Text) := do
  match ← braceWords (← completeWord word env) with
  | some words => return (← words.mapM (expandSingleWithGlob world)).flatten
  | none =>
    if word.parts.any isGlob then
      let pattern ← reconstructPattern world word env
      expandSingleWithGlob world pattern
    else
      let expanded ← expandWord world word env
      if isPureUnquotedExpansion word then return splitWhitespace expanded
      else return [expanded]

end RacOS.Shell
