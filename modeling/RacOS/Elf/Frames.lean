import RacOS.Elf.Growth
import RacOS.Lib.Triples

/-!
# The frames of a program that cannot be loaded

The loader gives no frame back.  When it fails, the frames it has got are lost, so that
the free frames are the same as before exactly if it failed before it got any: it gets
the first ones for the first segment that passes the checks.
-/

namespace RacOS.Elf

open Program
open Mm (pageSize Segment userStackSize)

/-- The same frames are free. -/
def SameFrames (free free' : List ℕ) : Prop := ∀ f, f ∈ free' ↔ f ∈ free

/-- A frame that was free is not free any more. -/
def Machine.LostFrom (free : List ℕ) (m : Machine) : Prop := ∃ f ∈ free, f ∉ m.free

theorem Machine.LostFrom.not_sameFrames {free : List ℕ} {m : Machine} (h : m.LostFrom free) :
    ¬SameFrames free m.free := by
  intro hsame
  obtain ⟨f, hf, hlost⟩ := h
  exact hlost ((hsame f).mpr hf)

theorem Machine.LostFrom.grows {free : List ℕ} {m m' : Machine} (h : m.LostFrom free)
    (hgrows : m.Grows m') : m'.LostFrom free := by
  obtain ⟨f, hf, hlost⟩ := h
  exact ⟨f, hf, fun hmem => hlost (hgrows.free hmem)⟩

variable {free : List ℕ} {α : Type} {x : LoadM α}

theorem Built.lost (h : Built x) :
    Triple (Machine.LostFrom free) x (fun _ => Machine.LostFrom free)
      (Machine.LostFrom free) :=
  .of_final fun m hm => hm.grows (h.grows m)

theorem Still.keeps (h : Still x) :
    Triple (fun m => m.free = free) x (fun _ m => m.free = free) (fun m => m.free = free) :=
  .of_final fun m hm => (h.free_eq m).trans hm

/-! ## Allocations -/

theorem mem_of_freeRun {count first : ℕ} (h : freeRun free count = some first) :
    first ∈ free ∧ first ∉ withoutRun free first count := by
  unfold freeRun at h
  split_ifs at h with hcount
  have hfirst : first ∈ List.range' first count := by
    rw [List.mem_range'_1]
    omega
  refine ⟨List.mem_of_find?_eq_some h, fun hmem => ?_⟩
  exact of_decide_eq_true (List.mem_filter.mp hmem).2 hfirst

/-- What is left after a run of frames was asked for: a frame is lost if there was one, and
otherwise none. -/
def After (free : List ℕ) (run : Option ℕ) (m : Machine) : Prop :=
  match run with
  | none => m.free = free
  | some _ => m.LostFrom free

theorem After.of_lost {run : Option ℕ} {m : Machine} (hrun : run.isSome) (h : m.LostFrom free) :
    After free run m := by
  obtain ⟨first, rfl⟩ := Option.isSome_iff_exists.mp hrun
  exact h

/-- If an allocation comes first, it decides what is left. -/
theorem allocContiguous_bind {f : ℕ → LoadM α} (hf : ∀ first, Built (f first)) (owner : Owner)
    (count : ℕ) :
    Triple (fun m => m.free = free) (allocContiguous owner count >>= f)
      (fun _ m => (freeRun free count).isSome ∧ m.LostFrom free)
      (After free (freeRun free count)) := by
  rintro m rfl
  cases hrun : freeRun m.free count with
  | none =>
    rw [bind_of_error (allocContiguous_of_none hrun)]
    rfl
  | some first =>
    rw [bind_of_ok (allocContiguous_of_some hrun)]
    have hlost : Triple (Machine.LostFrom m.free) (f first)
        (fun _ m' => (some first).isSome ∧ m'.LostFrom m.free) (Machine.LostFrom m.free) :=
      (hf first).lost.mono (fun _ hm => hm) fun _ _ hm => ⟨rfl, hm⟩
    exact hlost _ ⟨first, mem_of_freeRun hrun⟩

/-! ## The first segment -/

/-- The memory that is asked for first: that of the first segment, if the headers up to it
are in order. -/
def firstExtent (image : Image) (h : Header) : (left i : ℕ) → Progress → Option Extent
  | 0, _, _ => none
  | left + 1, i, p =>
    if (h.phdrOffset i + elf64PhdrSize) % word ≤ image.len then
      let ph := image.phdrAt (h.phdrOffset i)
      match noteDynamic h.loadBias ph p with
      | .error _ => none
      | .ok p =>
        if ph.type ≠ ptLoad then firstExtent image h left (i + 1) p
        else (ph.check image h.loadBias).toOption
    else none

def Image.firstExtent (image : Image) : Option Extent :=
  if elf64HeaderSize ≤ image.len ∧ image.header.check.isOk then
    Elf.firstExtent image image.header image.header.phnum 0 {}
  else none

/-- Where the memory is that is asked for first, if there is some. -/
def firstRun (x : Option Extent) (free : List ℕ) : Option ℕ := x.bind fun x => freeRun free x.pages

theorem loadSegment_after (image : Image) (loadBias : ℕ) (ph : Phdr) :
    Triple (fun m => m.free = free) (loadSegment image loadBias ph)
      (fun _ m => (firstRun (ph.check image loadBias).toOption free).isSome ∧ m.LostFrom free)
      (After free (firstRun (ph.check image loadBias).toOption free)) := by
  cases hcheck : ph.check image loadBias with
  | error e =>
    rintro m hm
    rw [loadSegment, hcheck]
    exact hm
  | ok x =>
    rw [loadSegment, hcheck]
    exact allocContiguous_bind
      (fun _ => .bind (Still.fillSegment _ _ _ _).built fun _ => .pure _) _ _

variable {image : Image} {loadBias : ℕ} {ph : Phdr} {p p' : Progress}

/-- A header that says where the dynamic section is, or nothing of interest. -/
theorem loadHeader_of_skip (hnote : noteDynamic loadBias ph p = .ok p') (hskip : ph.type ≠ ptLoad)
    (m : Machine) : loadHeader image loadBias ph p m = .ok p' m := by
  rw [loadHeader, hnote]
  exact congrFun (if_pos hskip) m

theorem loadHeader_of_load (hnote : noteDynamic loadBias ph p = .ok p') (hload : ph.type = ptLoad)
    (hroom : p'.segments.length < 8) (m : Machine) :
    loadHeader image loadBias ph p m =
      (do let seg ← loadSegment image loadBias ph
          return { p' with segments := p'.segments ++ [seg] } : LoadM Progress) m := by
  rw [loadHeader, hnote]
  refine (congrFun (if_neg (not_not.mpr hload)) m).trans ?_
  rw [require_bind_run, if_pos hroom]

theorem loadHeader_of_error {e : ElfError} (hnote : noteDynamic loadBias ph p = .error e)
    (m : Machine) : loadHeader image loadBias ph p m = .error e m := by
  rw [loadHeader, hnote]
  rfl

theorem loadHeader_after (hnote : noteDynamic loadBias ph p = .ok p') (hload : ph.type = ptLoad)
    (hroom : p'.segments.length < 8) :
    Triple (fun m => m.free = free) (loadHeader image loadBias ph p)
      (fun _ m => (firstRun (ph.check image loadBias).toOption free).isSome ∧ m.LostFrom free)
      (After free (firstRun (ph.check image loadBias).toOption free)) := by
  intro m hm
  rw [loadHeader_of_load hnote hload hroom m]
  exact Triple.bind (loadSegment_after image loadBias ph) (fun seg => .pure fun _ h => h) m hm

theorem Built.after (h : Built x) {run : Option ℕ} :
    Triple (fun m => run.isSome ∧ m.LostFrom free) x (fun _ => After free run)
      (After free run) :=
  .of_final fun m hm => .of_lost hm.1 (hm.2.grows (h.grows m))

theorem loadHeaders_after (image : Image) (h : Header) (left i : ℕ) (p : Progress)
    (hsegments : p.segments = []) :
    Triple (fun m => m.free = free) (loadHeaders image h left i p)
      (fun _ => After free (firstRun (firstExtent image h left i p) free))
      (After free (firstRun (firstExtent image h left i p) free)) := by
  induction left generalizing i p with
  | zero => exact .pure fun _ hm => hm
  | succ left ih =>
    intro m hm
    by_cases hread : (h.phdrOffset i + elf64PhdrSize) % word ≤ image.len
    · rw [loadHeaders, bind_of_ok (readPhdr_of_le m hread)]
      generalize hm' : { m with
        accesses := .image (h.phdrOffset i) elf64PhdrSize :: m.accesses } = m'
      replace hm : m'.free = free := by rw [← hm', ← hm]
      cases hnote : noteDynamic h.loadBias (image.phdrAt (h.phdrOffset i)) p with
      | error e =>
        have hnone : firstExtent image h (left + 1) i p = none := by
          simp only [firstExtent, hread, hnote, if_true]
        rw [hnone, bind_of_error (loadHeader_of_error hnote m')]
        exact hm
      | ok p' =>
        have hsegments' := (segments_of_noteDynamic hnote).trans hsegments
        by_cases hload : (image.phdrAt (h.phdrOffset i)).type = ptLoad
        · have hsome : firstExtent image h (left + 1) i p =
              ((image.phdrAt (h.phdrOffset i)).check image h.loadBias).toOption := by
            simp only [firstExtent, hread, hnote, hload, ne_eq, not_true, if_true, if_false]
          have hroom : p'.segments.length < 8 := by
            rw [hsegments']
            decide
          rw [hsome]
          exact Triple.bind (loadHeader_after hnote hload hroom)
            (fun p'' => (Built.loadHeaders _ _ _ _ p'').after) m' hm
        · have hskip : firstExtent image h (left + 1) i p =
              firstExtent image h left (i + 1) p' := by
            simp only [firstExtent, hread, hnote, hload, ne_eq, not_false_eq_true, if_true]
          rw [hskip, bind_of_ok (loadHeader_of_skip hnote hload m')]
          exact ih (i + 1) p' hsegments' m' hm
    · have hnone : firstExtent image h (left + 1) i p = none := by
        simp only [firstExtent, hread, if_false]
      rw [hnone, loadHeaders, bind_of_error (readPhdr_of_not_le m hread)]
      exact hm

/-! ## Loading -/

theorem allocStack_after :
    Triple (fun m => m.free = free) allocStack (fun _ => Machine.LostFrom free)
      (fun m => m.free = free) := by
  rintro m rfl
  rw [allocStack]
  cases hrun : freeRun m.free (userStackSize / pageSize) with
  | none => rw [bind_of_error (allocContiguous_of_none hrun)]
  | some first =>
    rw [bind_of_ok (allocContiguous_of_some hrun)]
    exact ⟨first, mem_of_freeRun hrun⟩

theorem finish_after (h : Header) (entryPoint : ℕ) (p : Progress) (run : Option ℕ) :
    Triple (After free run)
      (do relocate h p
          let stackFirst ← allocStack
          return ⟨entryPoint, p.segments, stackFirst⟩ : LoadM Loaded)
      (fun _ => Machine.LostFrom free) (After free run) := by
  cases run with
  | none =>
    refine .bind (Still.relocate h p).keeps fun _ => ?_
    exact .bind allocStack_after fun _ => .pure fun _ hm => hm
  | some first =>
    refine Built.lost (.bind (Still.relocate h p).built fun _ => ?_)
    exact .bind Built.allocStack fun _ => .pure _

theorem loadElf_after (image : Image) :
    Triple (fun m => m.free = free) (loadElf image) (fun _ => Machine.LostFrom free)
      (After free (firstRun image.firstExtent free)) := by
  rw [Image.firstExtent]
  by_cases hlen : elf64HeaderSize ≤ image.len
  · cases hcheck : image.header.check with
    | error e =>
      intro m hm
      rw [loadElf, require_bind_run, if_pos hlen, hcheck,
        if_neg (by simp [Except.isOk, Except.toBool])]
      exact hm
    | ok entryPoint =>
      intro m hm
      rw [if_pos ⟨hlen, rfl⟩, loadElf, require_bind_run, if_pos hlen, hcheck]
      exact Triple.bind (loadHeaders_after image image.header _ 0 {} rfl)
        (fun p => finish_after image.header entryPoint p _)
        { m with accesses := .image 0 elf64HeaderSize :: m.accesses } hm
  · intro m hm
    rw [loadElf, require_bind_run, if_neg hlen, if_neg fun h => hlen h.1]
    exact hm

end RacOS.Elf
