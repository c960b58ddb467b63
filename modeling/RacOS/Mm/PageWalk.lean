import Mathlib.Tactic.Common
import RacOS.Mm.PageTable

/-!
# Walking a page table level by level

What is seen of a page is a leaf, through the entries on the way to it.  A trace records the
flags of all entries on a walk and the leaf at its end.
-/

namespace RacOS.Mm

open Program

/-- A way of looking at walks: what a leaf shows, huge or not, and what an entry above
makes of it. -/
structure Observer (V : Type) where
  leaf : (huge : Bool) → ℕ → Flags → V
  restrict : Flags → V → V

/-- A level of tables of type `τ` for the pages `α`: what a table shows of a page, and the frame
that a huge entry above shows in place of a table.  Entries at the top level cannot be huge. -/
structure Level (τ α V : Type) where
  find : τ → α → Option V
  hugeFrame : Option (ℕ → α → ℕ)

namespace Level

variable {τ α V : Type} (O : Observer V) (L : Level τ α V)

/-- What an entry above shows of a page. -/
def findSlot (s : Slot τ) (w : α) : Option V :=
  if ¬ s.entry.IsPresent then none
  else
    match L.hugeFrame with
    | none => (L.find s.table w).map (O.restrict s.entry.flags)
    | some frame =>
      if s.entry.IsHuge then some (O.leaf true (frame s.entry.frame w) s.entry.flags)
      else (L.find s.table w).map (O.restrict s.entry.flags)

/-- The level above. -/
def up (hugeFrame : Option (ℕ → Index × α → ℕ)) : Level (Index → Slot τ) (Index × α) V where
  find t w := L.findSlot O (t w.1) w.2
  hugeFrame := hugeFrame

end Level

section Levels

variable {V : Type} (O : Observer V)

def ptLevel : Level Pt Index V where
  find t i := if ¬ (t i).IsPresent then none else some (O.leaf false (t i).frame (t i).flags)
  hugeFrame := some largeFrame

def pdLevel : Level Pd (Index × Index) V := (ptLevel O).up O (some giantFrame)

def pdptLevel : Level Pdpt (Index × Index × Index) V := (pdLevel O).up O none

def pml4Level : Level Pml4 Page V := (pdptLevel O).up O none

/-- What a page table shows of a page. -/
def observe (pml4 : Pml4) (w : Page) : Option V := (pml4Level O).find pml4 w

end Levels

/-! ## The entries on the walk to a page -/

/-- The flags on the way to a leaf, and the leaf. -/
structure Trace where
  uppers : List Flags
  huge : Bool
  frame : ℕ
  flags : Flags

namespace Trace

/-- Looking at a walk for all its entries. -/
def observer : Observer Trace where
  leaf huge frame flags := ⟨[], huge, frame, flags⟩
  restrict flags t := { t with uppers := flags :: t.uppers }

/-- All entries on the way have a flag. -/
def Grants (t : Trace) (a : Flag) : Prop := ∀ flags ∈ t.uppers, a ∈ flags

end Trace

/-- The trace of a page. -/
def trace (pml4 : Pml4) (w : Page) : Option Trace := observe Trace.observer pml4 w

/-- `user_access_flags` reports a flag for a page. -/
def Reports (pml4 : Pml4) (w : Page) (a : Flag) : Prop :=
  ∃ flags, userAccessFlags pml4 w = some flags ∧ a ∈ flags

/-- User and write access are reported if all entries on the way and the leaf have them. -/
theorem reports_iff {pml4 : Pml4} {w : Page} {a : Flag} (ha : a ∈ Flags.foldedMask) :
    Reports pml4 w a ↔ ∃ t, trace pml4 w = some t ∧ a ∈ t.flags ∧ t.Grants a := by
  unfold Reports userAccessFlags trace
  simp only [observe, Level.findSlot, pml4Level, pdptLevel, pdLevel, ptLevel, Level.up,
    Trace.observer, Trace.Grants]
  split_ifs <;> simp [ha]
  all_goals tauto

end RacOS.Mm
