import RacOS.Lib.Triples
import RacOS.Mm.AddressSpace

/-!
# Building a page table takes frames

The functions that build a page table take frames from the allocator and give none back,
however they end.
-/

namespace RacOS.Mm

open Program

/-- A frame of a walk is one of those that were free. -/
def Walk.Within {τ : Type} (free : List ℕ) (s : Walk τ) : Prop := s.free ⊆ free

/-- The program gives no frame back. -/
def Takes {τ α : Type} (x : WalkM τ α) : Prop := ∀ free, Maintains (Walk.Within free) x

namespace Takes

variable {τ α β : Type} {x : WalkM τ α}

theorem bind {f : α → WalkM τ β} (hx : Takes x) (hf : ∀ a, Takes (f a)) : Takes (x >>= f) :=
  fun free => Triple.bind (hx free) fun a => hf a free

theorem pure (a : α) : Takes (pure a : WalkM τ α) := fun _ => Triple.pure fun _ h => h

theorem allocFrame (message : String) : Takes (allocFrame message : WalkM τ ℕ) := by
  rintro free ⟨frames, table⟩ h
  cases frames with
  | nil => exact h
  | cons frame rest => exact List.Subset.trans (List.subset_cons_self frame rest) h

theorem setSlot (s : Slot τ) : Takes (setSlot s) := fun _ _ h => h

theorem atSlot (hx : Takes x) (i : Index) : Takes (atSlot i x) :=
  fun free => (hx free).focus (fun _ h => h) fun _ _ _ h => h

theorem inTable (hx : Takes x) : Takes (inTable x) :=
  fun free => (hx free).focus (fun _ h => h) fun _ _ _ h => h

theorem withMessage (hx : Takes x) (message : String) : Takes (withMessage message x) :=
  fun free => (hx free).focus (fun _ h => h) fun _ _ _ h => h

theorem of_run (h : ∀ s, ∃ y : WalkM τ α, Takes y ∧ x s = y s) : Takes x := by
  intro free s hs
  obtain ⟨y, hy, heq⟩ := h s
  rw [heq]
  exact hy free s hs

theorem splitHugeEntry (split : ℕ → Flags → Option τ) (tableFlags : Flags) :
    Takes (splitHugeEntry split tableFlags) := by
  refine of_run fun s => ?_
  by_cases hhuge : s.table.entry.IsHuge
  · refine ⟨_, (allocFrame _).bind fun newFrame => ?_, if_neg (not_not.mpr hhuge)⟩
    cases split s.table.entry.frame (childFlags s.table.entry.flags tableFlags) with
    | none => exact fun _ _ h => h
    | some table => exact setSlot _
  · exact ⟨_, pure (), if_pos hhuge⟩

theorem upgradeTable (tableFlags : Flags) :
    Takes (upgradeTable tableFlags : WalkM (Slot τ) Unit) := by
  refine of_run fun s => ?_
  by_cases hflags : tableFlags ⊆ s.table.entry.flags
  · exact ⟨_, pure (), if_pos hflags⟩
  · exact ⟨_, (allocFrame _).bind fun newFrame => setSlot _, if_neg hflags⟩

theorem ensureTable (empty : τ) (split : ℕ → Flags → Option τ) (tableFlags : Flags) :
    Takes (ensureTable empty split tableFlags) := by
  refine of_run fun s => ?_
  by_cases hpresent : s.table.entry.IsPresent
  · exact ⟨_, (splitHugeEntry _ _).bind fun _ => upgradeTable _, if_neg (not_not.mpr hpresent)⟩
  · exact ⟨_, (allocFrame _).bind fun frame => setSlot _, if_pos hpresent⟩

theorem setLeaf (frame : ℕ) (pageFlags : Flags) : Takes (setLeaf frame pageFlags) := by
  refine of_run fun s => ?_
  by_cases htaken : s.table.IsPresent ∧ .user ∉ pageFlags
  · exact ⟨throw "Page already mapped", fun _ _ h => h, if_pos htaken⟩
  · exact ⟨modify fun s : Walk Entry => { s with table := ⟨frame, pageFlags⟩ },
      fun _ _ h => h, if_neg htaken⟩

theorem mapPage (v : Page) (frame : ℕ) (pageFlags : Flags) : Takes (mapPage v frame pageFlags) := by
  refine atSlot (.bind (ensureTable _ _ _) fun _ => inTable (atSlot ?_ _)) _
  refine .bind (ensureTable _ _ _) fun _ => inTable (atSlot ?_ _)
  exact .bind (ensureTable _ _ _) fun _ => inTable (atSlot (setLeaf _ _) _)

theorem mapRange (pageFlags : Flags) (l : List (ℕ × ℕ)) : Takes (mapRange pageFlags l) := by
  induction l with
  | nil => exact pure ()
  | cons x rest ih => exact .bind (mapPage _ _ _) fun _ => ih

theorem mapSegments (segments : List Segment) : Takes (mapSegments segments) := by
  induction segments with
  | nil => exact pure ()
  | cons seg rest ih => exact .bind (withMessage (mapRange _ _) _) fun _ => ih

theorem mapProgram (loaded : LoadedElf) : Takes (mapProgram loaded) :=
  .bind (mapSegments _) fun _ => withMessage (mapRange _ _) _

end Takes

theorem takeFrame_takes (message : String) (free : List ℕ) :
    Maintains (· ⊆ free) (takeFrame message) := by
  intro frames h
  cases frames with
  | nil => exact h
  | cons frame rest => exact List.Subset.trans (List.subset_cons_self frame rest) h

/-- Building a page table gives no frame back. -/
theorem buildPageTable_takes (kernel : Pml4) (loaded : LoadedElf) (free : List ℕ) :
    Maintains (· ⊆ free) (buildPageTable kernel loaded) := by
  have hroot : Maintains (· ⊆ free) (withMessage "Failed to create user page table"
      (takeFrame "Out of frames for page table")) :=
    (takeFrame_takes _ free).focus (fun _ h => h) fun _ _ _ h => h
  refine Triple.bind hroot fun root => Triple.bind (Q := fun _ => (· ⊆ free)) ?_ fun table => ?_
  · intro frames h
    have hmap := Takes.mapProgram loaded free ⟨frames, createUserPageTable kernel⟩ h
    dsimp only
    cases hrun : mapProgram loaded ⟨frames, createUserPageTable kernel⟩ with
    | ok u s =>
      rw [hrun] at hmap
      exact hmap
    | error e s =>
      rw [hrun] at hmap
      exact hmap
  · cases recordProgram loaded {} with
    | ok u space => exact .pure fun _ h => h
    | error e space => exact .throw fun _ h => h

end RacOS.Mm
