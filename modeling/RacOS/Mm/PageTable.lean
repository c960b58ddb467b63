import Mathlib.Data.Finset.Basic
import Mathlib.Data.Fintype.Basic
import Mathlib.Logic.Function.Basic
import RacOS.Lib.Program

/-!
# Page tables

The model of the four-level page tables of `mm/virt.rs`.  A table is a tree: an entry
that is present and not huge comes with the table its frame holds.  Frames are
numbers of 4 KiB frames, and a virtual page is given by its four indices.  The frames
that a call takes from the allocator are part of the state it starts from.
-/

namespace RacOS.Mm

inductive Flag
  | present
  | writable
  | user
  | writeThrough
  | noCache
  | accessed
  | dirty
  | hugePage
  | global
  | userOwned
  | noExecute
  deriving DecidableEq

abbrev Flags := Finset Flag

namespace Flags

/-- A page table intermediate entry. -/
def table : Flags := {.present, .writable}

/-- The rights that are folded over the levels of a walk. -/
def foldedMask : Flags := {.user, .writable}

end Flags

structure Entry where
  frame : ℕ
  flags : Flags

namespace Entry

def empty : Entry := ⟨0, ∅⟩

def IsPresent (e : Entry) : Prop := .present ∈ e.flags

def IsHuge (e : Entry) : Prop := .hugePage ∈ e.flags

instance (e : Entry) : Decidable e.IsPresent := inferInstanceAs (Decidable (_ ∈ _))

instance (e : Entry) : Decidable e.IsHuge := inferInstanceAs (Decidable (_ ∈ _))

end Entry

/-- An entry with the table that it names, if it names one. -/
structure Slot (τ : Type) where
  entry : Entry
  table : τ

abbrev Index := Fin 512

/-- A table has entries. -/
instance neZero_tableLength : NeZero 512 := ⟨by decide⟩

abbrev Pt := Index → Entry

abbrev Pd := Index → Slot Pt

abbrev Pdpt := Index → Slot Pd

abbrev Pml4 := Index → Slot Pdpt

def Pt.empty : Pt := fun _ => .empty

def Pd.empty : Pd := fun _ => ⟨.empty, Pt.empty⟩

def Pdpt.empty : Pdpt := fun _ => ⟨.empty, Pd.empty⟩

def Pml4.empty : Pml4 := fun _ => ⟨.empty, Pdpt.empty⟩

/-- A virtual page: the indices into the four levels, from the top. -/
abbrev Page := Index × Index × Index × Index

namespace VirtAddr

def pml4Index (v : ℕ) : Index := Fin.ofNat 512 (v / 2 ^ 39)

def pdptIndex (v : ℕ) : Index := Fin.ofNat 512 (v / 2 ^ 30)

def pdIndex (v : ℕ) : Index := Fin.ofNat 512 (v / 2 ^ 21)

def ptIndex (v : ℕ) : Index := Fin.ofNat 512 (v / 2 ^ 12)

def page (v : ℕ) : Page := (pml4Index v, pdptIndex v, pdIndex v, ptIndex v)

end VirtAddr

/-! ## Walks -/

/-- The frames in a 2 MiB page. -/
def largeFrames : ℕ := 512

/-- The frames in a 1 GiB page. -/
def giantFrames : ℕ := 512 * 512

/-- The frame that the processor reaches at an index of a 2 MiB page: the low bits of the
frame in the entry are not part of the address. -/
def largeFrame (frame : ℕ) (i : Index) : ℕ := frame / largeFrames * largeFrames + i

def giantFrame (frame : ℕ) (w : Index × Index) : ℕ :=
  frame / giantFrames * giantFrames + largeFrames * w.1 + w.2

/-- What a user-mode access to a page may do: the rights folded over the levels, with the
other flags of the leaf. -/
def userAccessFlags (pml4 : Pml4) (v : Page) : Option Flags :=
  let s₄ := pml4 v.1
  if ¬ s₄.entry.IsPresent then none
  else
    let folded := s₄.entry.flags ∩ Flags.foldedMask
    let s₃ := s₄.table v.2.1
    if ¬ s₃.entry.IsPresent then none
    else
      let folded := folded ∩ s₃.entry.flags
      if s₃.entry.IsHuge then some ((s₃.entry.flags \ Flags.foldedMask) ∪ folded)
      else
        let s₂ := s₃.table v.2.2.1
        if ¬ s₂.entry.IsPresent then none
        else
          let folded := folded ∩ s₂.entry.flags
          if s₂.entry.IsHuge then some ((s₂.entry.flags \ Flags.foldedMask) ∪ folded)
          else
            let e₁ := s₂.table v.2.2.2
            if ¬ e₁.IsPresent then none
            else
              let folded := folded ∩ e₁.flags
              some ((e₁.flags \ Flags.foldedMask) ∪ folded)

/-- The frame that the processor reaches through the tables. -/
def translate (pml4 : Pml4) (v : Page) : Option ℕ :=
  let s₄ := pml4 v.1
  if ¬ s₄.entry.IsPresent then none
  else
    let s₃ := s₄.table v.2.1
    if ¬ s₃.entry.IsPresent then none
    else if s₃.entry.IsHuge then some (giantFrame s₃.entry.frame v.2.2)
    else
      let s₂ := s₃.table v.2.2.1
      if ¬ s₂.entry.IsPresent then none
      else if s₂.entry.IsHuge then some (largeFrame s₂.entry.frame v.2.2.2)
      else
        let e₁ := s₂.table v.2.2.2
        if ¬ e₁.IsPresent then none else some e₁.frame

/-! ## Programs on tables -/

/-- A table under a walk, and the frames that the allocator has to give. -/
structure Walk (τ : Type) where
  free : List ℕ
  table : τ

abbrev WalkM (τ : Type) := EStateM String (Walk τ)

/-- The flags of the parts of a huge entry: user access is added to all of them if the
mapping needs it for one. -/
def childFlags (oldFlags tableFlags : Flags) : Flags :=
  oldFlags.erase .hugePage ∪ (if .user ∈ tableFlags then {.user} else ∅)

/-- The flags of the entry for the parts. -/
def parentFlags (oldFlags tableFlags : Flags) : Flags :=
  Flags.table ∪ (if .user ∈ oldFlags ∨ .user ∈ tableFlags then {.user} else ∅)

section Descent

variable {τ α : Type}

/-- `phys::alloc_frame`, with the message of the caller. -/
def allocFrame (message : String) : WalkM τ ℕ := fun s =>
  match s.free with
  | [] => .error message s
  | frame :: rest => .ok frame { s with free := rest }

/-- Run a program on the slot at an index of a table. -/
def atSlot (i : Index) (x : WalkM τ α) : WalkM (Index → τ) α :=
  Program.focus (fun s => ⟨s.free, s.table i⟩)
    (fun s t => ⟨t.free, Function.update s.table i t.table⟩) id x

/-- Run a program on the table that a slot names. -/
def inTable (x : WalkM τ α) : WalkM (Slot τ) α :=
  Program.focus (fun s => ⟨s.free, s.table.table⟩)
    (fun s t => ⟨t.free, { s.table with table := t.table }⟩) id x

def setSlot (s : Slot τ) : WalkM (Slot τ) Unit := modify fun w => { w with table := s }

/-- Make a lower-level table out of a huge entry.  `split` is what the level of the entry
makes of a first frame and flags. -/
def splitHugeEntry (split : ℕ → Flags → Option τ) (tableFlags : Flags) :
    WalkM (Slot τ) Unit := fun s =>
  if ¬ s.table.entry.IsHuge then .ok () s
  else
    (do
      let newFrame ← allocFrame "Out of frames for split table"
      match split s.table.entry.frame (childFlags s.table.entry.flags tableFlags) with
      | none => throw "Invalid level for huge-page split"
      | some table =>
        setSlot ⟨⟨newFrame, parentFlags s.table.entry.flags tableFlags⟩, table⟩) s

/-- Add the flags that an entry lacks, with a copy of its table. -/
def upgradeTable (tableFlags : Flags) : WalkM (Slot τ) Unit := fun s =>
  if tableFlags ⊆ s.table.entry.flags then .ok () s
  else
    (do
      let newFrame ← allocFrame "Out of frames for page table"
      setSlot ⟨⟨newFrame, s.table.entry.flags ∪ tableFlags⟩, s.table.table⟩) s

/-- Ensure that an entry points to a sub-table. -/
def ensureTable (empty : τ) (split : ℕ → Flags → Option τ) (tableFlags : Flags) :
    WalkM (Slot τ) Unit := fun s =>
  if ¬ s.table.entry.IsPresent then
    (do
      let frame ← allocFrame "Out of frames for page table"
      setSlot ⟨⟨frame, tableFlags⟩, empty⟩) s
  else
    (do
      splitHugeEntry split tableFlags
      upgradeTable tableFlags) s

end Descent

/-- A 2 MiB page as 512 pages of 4 KiB. -/
def splitLarge (frame : ℕ) (flags : Flags) : Option Pt :=
  some fun i => ⟨frame + i, flags⟩

/-- A 1 GiB page as 512 pages of 2 MiB. -/
def splitGiant (frame : ℕ) (flags : Flags) : Option Pd :=
  some fun i => ⟨⟨frame + largeFrames * i, insert .hugePage flags⟩, Pt.empty⟩

/-- Huge entries at the top level cannot be split. -/
def splitNone (_ : ℕ) (_ : Flags) : Option Pdpt := none

def setLeaf (frame : ℕ) (pageFlags : Flags) : WalkM Entry Unit := fun s =>
  if s.table.IsPresent ∧ .user ∉ pageFlags then .error "Page already mapped" s
  else .ok () { s with table := ⟨frame, pageFlags⟩ }

/-- The flags that a mapping needs on the levels above. -/
def tableFlagsFor (pageFlags : Flags) : Flags :=
  if .user ∈ pageFlags then Flags.table ∪ {.user} else Flags.table

/-- Map a single 4 KiB page. -/
def mapPage (v : Page) (frame : ℕ) (pageFlags : Flags) : WalkM Pml4 Unit :=
  let tableFlags := tableFlagsFor pageFlags
  atSlot v.1 do
    ensureTable Pdpt.empty splitNone tableFlags
    inTable <| atSlot v.2.1 do
      ensureTable Pd.empty splitGiant tableFlags
      inTable <| atSlot v.2.2.1 do
        ensureTable Pt.empty splitLarge tableFlags
        inTable <| atSlot v.2.2.2 (setLeaf frame pageFlags)

end RacOS.Mm
