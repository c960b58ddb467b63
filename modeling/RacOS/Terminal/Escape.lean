import Mathlib.Data.Nat.Notation

/-!
# The escape sequence parser

The model of `terminal/src/escape.rs`: a machine that is fed a byte at a time and now and then
gives an action.  Parameters are `u16` values with saturating arithmetic.
-/

namespace RacOS.RacTerm

inductive State
  | ground
  | escape
  | csiEntry
  | csiParam
  | oscString
  deriving DecidableEq

inductive Action
  | print (ch : Char)
  | execute (byte : UInt8)
  | csiDispatch (params : List ℕ) (intermediates : List UInt8) (finalByte : UInt8)
      (isPrivate : Bool)
  | oscDispatch (s : String)
  | escDispatch (byte : UInt8)

structure EscParser where
  state : State := .ground
  paramsBuf : List UInt8 := []
  intermediates : List UInt8 := []
  isPrivate : Bool := false
  oscBuf : List UInt8 := []

/-- A byte as a character. -/
def charOf (byte : UInt8) : Char := Char.ofNat byte.toNat

namespace EscParser

def ground (p : EscParser) (byte : UInt8) : EscParser × Option Action :=
  if byte = 0x1B then ({ p with state := .escape }, none)
  else if byte ≤ 0x1F then (p, some (.execute byte))
  else if byte = 0x7F then (p, none)
  else (p, some (.print (charOf byte)))

def escape (p : EscParser) (byte : UInt8) : EscParser × Option Action :=
  if byte = 0x5B then
    ({ p with state := .csiEntry, paramsBuf := [], intermediates := [], isPrivate := false }, none)
  else if byte = 0x5D then ({ p with state := .oscString, oscBuf := [] }, none)
  else if byte = 0x1B then (p, none)
  else ({ p with state := .ground }, some (.escDispatch byte))

/-- The digits and the semicolon. -/
def isParamByte (byte : UInt8) : Bool := (0x30 ≤ byte ∧ byte ≤ 0x39) ∨ byte = 0x3B

/-- The largest `u16`. -/
def maxParam : ℕ := 65535

/-- The numbers between the semicolons; one that is missing is zero. -/
def parseLoop : List UInt8 → (current : ℕ) → (hasCurrent : Bool) → List ℕ
  | [], current, hasCurrent => [if hasCurrent then current else 0]
  | b :: bytes, current, hasCurrent =>
    if b = 0x3B then (if hasCurrent then current else 0) :: parseLoop bytes 0 false
    else if 0x30 ≤ b ∧ b ≤ 0x39 then
      parseLoop bytes (min (min (current * 10) maxParam + (b - 0x30).toNat) maxParam) true
    else parseLoop bytes current hasCurrent

def parseParams (p : EscParser) : List ℕ :=
  if p.paramsBuf = [] then [] else parseLoop p.paramsBuf 0 false

def dispatchCsi (p : EscParser) (finalByte : UInt8) : Action :=
  .csiDispatch p.parseParams p.intermediates finalByte p.isPrivate

def csiEntry (p : EscParser) (byte : UInt8) : EscParser × Option Action :=
  if byte = 0x3F then ({ p with isPrivate := true, state := .csiParam }, none)
  else if isParamByte byte then
    ({ p with paramsBuf := p.paramsBuf ++ [byte], state := .csiParam }, none)
  else if 0x40 ≤ byte ∧ byte ≤ 0x7E then
    ({ p with state := .ground }, some (p.dispatchCsi byte))
  else if 0x20 ≤ byte ∧ byte ≤ 0x2F then
    ({ p with intermediates := p.intermediates ++ [byte], state := .csiParam }, none)
  else if byte = 0x1B then ({ p with state := .escape }, none)
  else ({ p with state := .ground }, none)

def csiParam (p : EscParser) (byte : UInt8) : EscParser × Option Action :=
  if isParamByte byte then
    (if p.paramsBuf.length < 64 then { p with paramsBuf := p.paramsBuf ++ [byte] } else p, none)
  else if 0x20 ≤ byte ∧ byte ≤ 0x2F then
    ({ p with intermediates := p.intermediates ++ [byte] }, none)
  else if 0x40 ≤ byte ∧ byte ≤ 0x7E then
    ({ p with state := .ground }, some (p.dispatchCsi byte))
  else if byte = 0x1B then ({ p with state := .escape }, none)
  else ({ p with state := .ground }, none)

def oscString (p : EscParser) (byte : UInt8) : EscParser × Option Action :=
  if byte = 0x07 ∨ byte = 0x1B then
    ({ p with state := .ground },
      some (.oscDispatch ((String.fromUTF8? ⟨p.oscBuf.toArray⟩).getD "")))
  else (if p.oscBuf.length < 256 then { p with oscBuf := p.oscBuf ++ [byte] } else p, none)

/-- Feed one byte. -/
def feed (p : EscParser) (byte : UInt8) : EscParser × Option Action :=
  match p.state with
  | .ground => p.ground byte
  | .escape => p.escape byte
  | .csiEntry => p.csiEntry byte
  | .csiParam => p.csiParam byte
  | .oscString => p.oscString byte

/-- Outside of a string, an escape byte starts a sequence and gives no action. -/
theorem feed_esc {p : EscParser} (h : p.state ≠ .oscString) :
    p.feed 0x1B = ({ p with state := .escape }, none) := by
  unfold feed
  cases hstate : p.state with
  | ground => rfl
  | escape =>
    have hp : { p with state := .escape } = p := by rw [← hstate]
    rw [hp]
    rfl
  | csiEntry => rfl
  | csiParam => rfl
  | oscString => exact absurd hstate h

end EscParser

end RacOS.RacTerm
