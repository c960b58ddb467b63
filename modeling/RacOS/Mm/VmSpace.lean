import RacOS.Lib.Intervals
import RacOS.Lib.Program
import Mathlib.Tactic.Common
import Mathlib.Data.UInt

/-!
# The area list of an address space

The model of `mm/vm.rs`: the ranges a process owns, with their access and kind,
as a list sorted by start.  Over it stands the page map, which is what the list
is for: which access a page has.  Every call acts on the page map at the pages
of its range and nowhere else.
-/

namespace RacOS.Mm

open Program

abbrev pageSize : ℕ := 4096

/-- Lowest address a user mapping may start at. -/
abbrev userFloor : ℕ := 0x100000000

/-- One past the highest user address. -/
abbrev userCeiling : ℕ := 0x800000000000

/-- Where anonymous mappings are placed when the caller gives no address. -/
abbrev mmapTop : ℕ := 0x7FF000000000

abbrev protRead : UInt32 := 1
abbrev protWrite : UInt32 := 2
abbrev protExec : UInt32 := 4

/-- What a mapping is. -/
inductive AreaKind
  | elf
  | stack
  | anon
  deriving DecidableEq

/-- One contiguous mapped range `[start, stop)`. -/
structure VmArea where
  start : ℕ
  stop : ℕ
  prot : UInt32
  kind : AreaKind
  deriving DecidableEq

/-- Why an area could not be added. -/
inductive VmError
  | invalid
  | overlap
  deriving DecidableEq

/-- The areas of one address space. -/
structure VmSpace where
  areas : List VmArea := []
  deriving DecidableEq

/-- A page-aligned, non-empty range inside the user address space. -/
def rangeIsValid (start stop : ℕ) : Prop :=
  pageSize ∣ start ∧ pageSize ∣ stop ∧ start < stop ∧ userFloor ≤ start ∧ stop ≤ userCeiling

instance (start stop : ℕ) : Decidable (rangeIsValid start stop) :=
  inferInstanceAs (Decidable (_ ∧ _))

variable {space : VmSpace}

namespace VmSpace

/-- The area containing an address, if any. -/
def find (space : VmSpace) (addr : ℕ) : Option VmArea :=
  Intervals.lookup VmArea.start VmArea.stop space.areas addr

/-- Some area intersects `[start, stop)`. -/
def overlaps (space : VmSpace) (start stop : ℕ) : Bool :=
  space.areas.any fun a => a.start < stop ∧ start < a.stop

variable {a : VmArea} {addr : ℕ}

theorem lt_stop_of_find (h : space.find addr = some a) : a.start ≤ addr ∧ addr < a.stop := by
  have := List.find?_some h
  simpa [Intervals.Covers] using of_decide_eq_true this

/-- Every page of `[cursor, stop)` lies inside some area. -/
def covers (space : VmSpace) (cursor stop : ℕ) : Bool :=
  if cursor < stop then
    match _h : space.find cursor with
    | some a => space.covers a.stop stop
    | none => false
  else true
  termination_by stop - cursor
  decreasing_by
    have := lt_stop_of_find _h
    omega

/-- Record a new area.  The range must be valid and free. -/
def insert (area : VmArea) : EStateM VmError VmSpace Unit := do
  require (rangeIsValid area.start area.stop) .invalid
  let space ← get
  require (¬space.overlaps area.start area.stop) .overlap
  set { areas := Intervals.insert VmArea.start area space.areas : VmSpace }

/-- Where the free gap that begins at `cursor` ends, at most `stop`. -/
def gapEnd (space : VmSpace) (cursor stop : ℕ) : ℕ :=
  (((space.areas.filter fun a => cursor < a.start).map VmArea.start).min?.getD
    stop).min stop

/-- The gap is not empty, no area starts inside it, and it ends at the start of
an area or at `stop`. -/
theorem gapEnd_spec (space : VmSpace) {cursor stop : ℕ} (h : cursor < stop) :
    cursor < space.gapEnd cursor stop ∧ space.gapEnd cursor stop ≤ stop ∧
      (∀ a ∈ space.areas, cursor < a.start → space.gapEnd cursor stop ≤ a.start) ∧
      (space.gapEnd cursor stop = stop ∨
        ∃ a ∈ space.areas, space.gapEnd cursor stop = a.start) := by
  let starts := (space.areas.filter fun a => cursor < a.start).map VmArea.start
  have hstarts {n : ℕ} : n ∈ starts ↔ ∃ a ∈ space.areas, cursor < a.start ∧ a.start = n := by
    simp [starts, and_assoc]
  have hend : space.gapEnd cursor stop = min (starts.min?.getD stop) stop := rfl
  cases hmin : starts.min? with
  | none =>
    have hempty := List.min?_eq_none_iff.mp hmin
    have hstop : space.gapEnd cursor stop = stop := by simp [hend, hmin]
    rw [hstop]
    refine ⟨h, le_refl _, fun a ha hlt => ?_, Or.inl rfl⟩
    have : a.start ∈ starts := hstarts.mpr ⟨a, ha, hlt, rfl⟩
    simp [hempty] at this
  | some n =>
    obtain ⟨hmem, hle⟩ := List.min?_eq_some_iff.mp hmin
    obtain ⟨b, hb, hlt, rfl⟩ := hstarts.mp hmem
    have hstop : space.gapEnd cursor stop = min b.start stop := by
      simp [hend, hmin]
    rw [hstop]
    refine ⟨lt_min hlt h, min_le_right _ _, fun a ha hlt => ?_, ?_⟩
    · exact (min_le_left _ _).trans (hle _ (hstarts.mpr ⟨a, ha, hlt, rfl⟩))
    · rcases min_choice b.start stop with hc | hc
      · exact Or.inr ⟨b, hb, hc⟩
      · exact Or.inl hc

/-- The loop of `insertUncovered`: record the gaps of the area from `cursor`
on. -/
def insertGaps (area : VmArea) (cursor : ℕ) : EStateM VmError VmSpace Unit :=
  fun space =>
    if _h : cursor < area.stop then
      match _hf : space.find cursor with
      | some a => insertGaps area a.stop space
      | none =>
        let next := space.gapEnd cursor area.stop
        (do
          insert { area with start := cursor, stop := next }
          insertGaps area next : EStateM VmError VmSpace Unit) space
    else .ok () space
  termination_by area.stop - cursor
  decreasing_by
    · have := lt_stop_of_find _hf
      omega
    · rename_i space _
      have := (gapEnd_spec space _h).1
      omega

/-- The loop skips an area that the cursor stands on. -/
theorem insertGaps_of_find {area a : VmArea} {cursor : ℕ} (hlt : cursor < area.stop)
    (hfind : space.find cursor = some a) :
    insertGaps area cursor space = insertGaps area a.stop space := by
  rw [insertGaps, dif_pos hlt]
  split
  · rename_i b hb
    rw [Option.some_inj.mp (hfind.symm.trans hb)]
  · rename_i hb
    exact absurd (hfind.symm.trans hb) (Option.some_ne_none a)

variable {area : VmArea}

/-- The loop records the gap that begins at the cursor. -/
theorem insertGaps_of_gap {cursor : ℕ} {space mid : VmSpace} (hlt : cursor < area.stop)
    (hfind : space.find cursor = none) (hinsert : insert { area with
      start := cursor, stop := space.gapEnd cursor area.stop } space = .ok () mid) :
    insertGaps area cursor space = insertGaps area (space.gapEnd cursor area.stop) mid := by
  rw [insertGaps, dif_pos hlt]
  split
  · rename_i a ha
    exact absurd (ha.symm.trans hfind) (Option.some_ne_none a)
  · exact bind_of_ok hinsert

/-- Record an area, leaving out whatever part of it is already covered. -/
def insertUncovered (area : VmArea) : EStateM VmError VmSpace Unit := do
  require (rangeIsValid area.start area.stop) .invalid
  insertGaps area area.start

/-- The walk of `findFreeBelow` over the areas from the top down. -/
def freeBelow (len : ℕ) : List VmArea → ℕ → Option ℕ
  | [], limit => if userFloor + len ≤ limit then some (limit - len) else none
  | a :: below, limit =>
    if a.stop ≤ limit then
      if len ≤ limit - a.stop ∧ userFloor ≤ limit - len then
        some (limit - len)
      else freeBelow len below a.start
    else if a.start < limit then freeBelow len below a.start
    else freeBelow len below limit

/-- Highest-placed free gap of `len` bytes below `top`. -/
def findFreeBelow (space : VmSpace) (len top : ℕ) : Option ℕ :=
  freeBelow len space.areas.reverse (min top userCeiling)

/-- What is left of an area when `[start, stop)` is cut out. -/
def cutOut (start stop : ℕ) (a : VmArea) : List VmArea :=
  if a.stop ≤ start ∨ stop ≤ a.start then [a]
  else
    (if a.start < start then [{ a with stop := start }] else []) ++
      (if stop < a.stop then [{ a with start := stop }] else [])

/-- Cut `[start, stop)` out of the areas that cover it. -/
def removeRange (start stop : ℕ) : EStateM VmError VmSpace Unit :=
  modify fun space => { areas := space.areas.flatMap (cutOut start stop) }

/-- The pieces of an area when `[start, stop)` is given the access `prot`. -/
def splitProt (start stop : ℕ) (prot : UInt32) (a : VmArea) : List VmArea :=
  if a.stop ≤ start ∨ stop ≤ a.start then [a]
  else
    (if a.start < start then [{ a with stop := start }] else []) ++
      [{ a with start := max a.start start, stop := min a.stop stop, prot }] ++
      (if stop < a.stop then [{ a with start := stop }] else [])

/-- Give every page of `[start, stop)` the access `prot`. -/
def setProt (start stop : ℕ) (prot : UInt32) : EStateM VmError VmSpace Unit :=
  modify fun space =>
    { areas := space.areas.flatMap (splitProt start stop prot) }

/-! ## Well-formed lists -/

/-- The areas are sorted, disjoint and not empty, and each is a valid range. -/
structure WellFormed (space : VmSpace) : Prop where
  ordered : Intervals.Ordered VmArea.start VmArea.stop space.areas
  valid : ∀ a ∈ space.areas, rangeIsValid a.start a.stop

theorem wellFormed_empty : WellFormed {} :=
  ⟨.nil, fun _ h => absurd h List.not_mem_nil⟩

/-- The access and kind of an address. -/
def access (space : VmSpace) (addr : ℕ) : Option (UInt32 × AreaKind) :=
  (space.find addr).map fun a => (a.prot, a.kind)

variable {start stop : ℕ}

theorem overlaps_eq_false_iff :
    space.overlaps start stop = false ↔ ∀ a ∈ space.areas, a.stop ≤ start ∨ stop ≤ a.start := by
  simp only [overlaps, List.any_eq_false, decide_eq_true_eq, not_and, not_lt]
  refine forall₂_congr fun a _ => ?_
  by_cases h : a.start < stop
  · simp [h, not_le.mpr h]
  · simp [h, not_lt.mp h]

theorem access_eq_none_iff : space.access addr = none ↔ space.find addr = none :=
  Option.map_eq_none_iff

theorem WellFormed.find_eq_some_iff (h : space.WellFormed) :
    space.find addr = some a ↔ a ∈ space.areas ∧ a.start ≤ addr ∧ addr < a.stop :=
  h.ordered.lookup_eq_some_iff

/-! ## The calls -/

theorem insert_run (area : VmArea) (space : VmSpace) :
    insert area space = if ¬rangeIsValid area.start area.stop then .error .invalid space
      else if space.overlaps area.start area.stop then .error .overlap space
      else .ok ()
        { areas := Intervals.insert VmArea.start area space.areas } := by
  rw [insert, require_bind_run]
  by_cases hvalid : rangeIsValid area.start area.stop
  · rw [if_pos hvalid, get_bind_run, require_bind_run]
    by_cases hover : space.overlaps area.start area.stop
    · simp [hvalid, hover]
    · simp [hvalid, hover]
      rfl
  · simp [hvalid]

/-- A valid range that is free can be recorded, and is then the only change. -/
theorem WellFormed.insert (h : space.WellFormed) (area : VmArea)
    (hvalid : rangeIsValid area.start area.stop)
    (hfree : space.overlaps area.start area.stop = false) :
    ∃ space', VmSpace.insert area space = .ok () space' ∧ space'.WellFormed ∧
      ∀ addr, space'.access addr =
        if area.start ≤ addr ∧ addr < area.stop then
          some (area.prot, area.kind)
        else space.access addr := by
  have hapart := overlaps_eq_false_iff.mp hfree
  have hproper := hvalid.2.2.1
  refine ⟨{ areas := Intervals.insert VmArea.start area space.areas }, ?_,
    ⟨h.ordered.insert hproper hapart, fun a ha => ?_⟩, fun addr => ?_⟩
  · simp [insert_run, hvalid, hfree]
  · rcases Intervals.mem_insert.mp ha with rfl | ha
    · exact hvalid
    · exact h.valid a ha
  · have hlookup := h.ordered.lookup_insert (x := addr) hproper hapart
    simp only [access, find, hlookup, Intervals.Covers]
    by_cases hin : area.start ≤ addr ∧ addr < area.stop <;> simp [hin]

/-- Both loops that go through the areas replace each by pieces of it. -/
theorem WellFormed.flatMap (h : space.WellFormed) {f : VmArea → List VmArea}
    (hf : ∀ a ∈ space.areas, Intervals.Ordered VmArea.start VmArea.stop (f a) ∧
      ∀ b ∈ f a, a.start ≤ b.start ∧ b.stop ≤ a.stop) (haligned : ∀ a ∈ space.areas, ∀ b ∈ f a,
      pageSize ∣ b.start ∧ pageSize ∣ b.stop) :
    WellFormed { areas := space.areas.flatMap f } where
  ordered := h.ordered.flatMap hf
  valid b hb := by
    have hproper := (h.ordered.flatMap hf).proper b hb
    obtain ⟨a, ha, hb⟩ := List.mem_flatMap.mp hb
    obtain ⟨hstart, hstop⟩ := haligned a ha b hb
    obtain ⟨hlow, hhigh⟩ := (hf a ha).2 b hb
    obtain ⟨-, -, -, hfloor, hceiling⟩ := h.valid a ha
    exact ⟨hstart, hstop, hproper, hfloor.trans hlow, hhigh.trans hceiling⟩

theorem cutOut_pieces (hle : start ≤ stop) (ha : a.start < a.stop) :
    Intervals.Ordered VmArea.start VmArea.stop (cutOut start stop a) ∧
      ∀ b ∈ cutOut start stop a, a.start ≤ b.start ∧ b.stop ≤ a.stop := by
  unfold cutOut
  split_ifs <;> simp <;> omega

theorem cutOut_aligned (hstart : pageSize ∣ start) (hstop : pageSize ∣ stop)
    (ha : pageSize ∣ a.start) (ha' : pageSize ∣ a.stop) :
    ∀ b ∈ cutOut start stop a, pageSize ∣ b.start ∧ pageSize ∣ b.stop := by
  unfold cutOut
  split_ifs <;> simp [ha, ha', hstart, hstop]

variable {prot : UInt32}

theorem splitProt_pieces (hlt : start < stop) (ha : a.start < a.stop) :
    Intervals.Ordered VmArea.start VmArea.stop (splitProt start stop prot a) ∧
      ∀ b ∈ splitProt start stop prot a, a.start ≤ b.start ∧ b.stop ≤ a.stop := by
  unfold splitProt
  split_ifs <;> simp <;> omega

theorem splitProt_aligned (hstart : pageSize ∣ start) (hstop : pageSize ∣ stop)
    (ha : pageSize ∣ a.start) (ha' : pageSize ∣ a.stop) :
    ∀ b ∈ splitProt start stop prot a, pageSize ∣ b.start ∧ pageSize ∣ b.stop := by
  have hmax : pageSize ∣ max a.start start := by
    rcases max_choice a.start start with h | h <;> rwa [h]
  have hmin : pageSize ∣ min a.stop stop := by
    rcases min_choice a.stop stop with h | h <;> rwa [h]
  unfold splitProt
  split_ifs <;> simp [ha, ha', hstart, hstop, hmax, hmin]

/-- An address of the area stays in one of the pieces unless it is cut out. -/
theorem access_cutOut {start stop addr : ℕ} (hlow : a.start ≤ addr) (hhigh : addr < a.stop) :
    access { areas := cutOut start stop a } addr =
      if start ≤ addr ∧ addr < stop then none else some (a.prot, a.kind) := by
  unfold access find cutOut
  split_ifs <;> simp only [List.cons_append, List.nil_append,
    Intervals.lookup_cons, Intervals.lookup_nil, Intervals.Covers] <;> grind

/-- An address of the area stays in one of the pieces, with the new access if
it lies in the range. -/
theorem access_splitProt {start stop addr : ℕ} (hlt : start < stop) (hlow : a.start ≤ addr)
    (hhigh : addr < a.stop) :
    access { areas := splitProt start stop prot a } addr =
      some (if start ≤ addr ∧ addr < stop then prot else a.prot, a.kind) := by
  unfold access find splitProt
  split_ifs <;> simp only [List.cons_append, List.nil_append,
    Intervals.lookup_cons, Intervals.lookup_nil, Intervals.Covers] <;> grind

/-- What the access of an address becomes when the areas are cut into pieces. -/
theorem WellFormed.access_flatMap (h : space.WellFormed) {f : VmArea → List VmArea}
    (hf : ∀ a ∈ space.areas, Intervals.Ordered VmArea.start VmArea.stop (f a) ∧
      ∀ b ∈ f a, a.start ≤ b.start ∧ b.stop ≤ a.stop)
    {g : UInt32 × AreaKind → Option (UInt32 × AreaKind)}
    (hg : ∀ a : VmArea, a.start ≤ addr → addr < a.stop →
      access { areas := f a } addr = g (a.prot, a.kind)) :
    access { areas := space.areas.flatMap f } addr = (space.access addr).bind g := by
  have hlookup := h.ordered.lookup_flatMap (x := addr) hf
  simp only [access, find, hlookup]
  cases hfind : Intervals.lookup VmArea.start VmArea.stop space.areas addr with
  | none => simp
  | some a =>
    obtain ⟨-, hlow, hhigh⟩ := h.ordered.lookup_eq_some_iff.mp hfind
    exact hg a hlow hhigh

/-- Cutting out an aligned range leaves exactly the other addresses. -/
theorem WellFormed.removeRange (h : space.WellFormed) (hstart : pageSize ∣ start)
    (hstop : pageSize ∣ stop) (hle : start ≤ stop) :
    ∃ space', VmSpace.removeRange start stop space = .ok () space' ∧ space'.WellFormed ∧
      ∀ addr, space'.access addr =
        if start ≤ addr ∧ addr < stop then none else space.access addr := by
  have hpieces := fun a ha => cutOut_pieces hle (h.ordered.proper a ha)
  refine ⟨{ areas := space.areas.flatMap (cutOut start stop) }, rfl,
    h.flatMap hpieces fun a ha b hb => ?_, fun addr => ?_⟩
  · obtain ⟨hastart, hastop, -⟩ := h.valid a ha
    exact cutOut_aligned hstart hstop hastart hastop b hb
  · rw [h.access_flatMap (g := fun old =>
      if start ≤ addr ∧ addr < stop then none else some old) hpieces
      fun a => access_cutOut]
    split <;> cases space.access addr <;> rfl

/-- Changing the access of an aligned range changes that of exactly its mapped
addresses. -/
theorem WellFormed.setProt (h : space.WellFormed) (hstart : pageSize ∣ start)
    (hstop : pageSize ∣ stop) (hlt : start < stop) (prot : UInt32) :
    ∃ space', VmSpace.setProt start stop prot space = .ok () space' ∧ space'.WellFormed ∧
      ∀ addr, space'.access addr =
        if start ≤ addr ∧ addr < stop then
          (space.access addr).map fun old => (prot, old.2)
        else space.access addr := by
  have hpieces (a : VmArea) (ha : a ∈ space.areas) :
      Intervals.Ordered VmArea.start VmArea.stop (splitProt start stop prot a) ∧
        ∀ b ∈ splitProt start stop prot a, a.start ≤ b.start ∧ b.stop ≤ a.stop :=
    splitProt_pieces hlt (h.ordered.proper a ha)
  refine ⟨{ areas := space.areas.flatMap (splitProt start stop prot) }, rfl,
    h.flatMap hpieces fun a ha b hb => ?_, fun addr => ?_⟩
  · obtain ⟨hastart, hastop, -⟩ := h.valid a ha
    exact splitProt_aligned hstart hstop hastart hastop b hb
  · rw [h.access_flatMap (g := fun old =>
      some (if start ≤ addr ∧ addr < stop then prot else old.1, old.2)) hpieces
      fun a => access_splitProt hlt]
    split <;> cases space.access addr <;> rfl

/-- Where the cursor stands on no area, the gap up to `gapEnd` is free. -/
theorem gap_free {cursor stop : ℕ} (hlt : cursor < stop) (hfind : space.find cursor = none) :
    space.overlaps cursor (space.gapEnd cursor stop) = false := by
  obtain ⟨-, -, hnext, -⟩ := gapEnd_spec space hlt
  refine overlaps_eq_false_iff.mpr fun a ha => ?_
  rcases Nat.lt_or_ge cursor a.start with hafter | hbefore
  · exact Or.inr (hnext a ha hafter)
  · have hout := Intervals.lookup_eq_none_iff.mp hfind a ha
    exact Or.inl (not_lt.mp fun hin => hout ⟨hbefore, hin⟩)

theorem WellFormed.gapEnd_aligned (h : space.WellFormed) {cursor stop : ℕ} (hlt : cursor < stop)
    (hstop : pageSize ∣ stop) : pageSize ∣ space.gapEnd cursor stop := by
  obtain ⟨-, -, -, hend | ⟨a, ha, hend⟩⟩ := gapEnd_spec space hlt
  · rwa [hend]
  · rw [hend]
    exact (h.valid a ha).1

/-- The loop records the gaps that are left of the area, and only them. -/
theorem WellFormed.insertGaps (hvalid : rangeIsValid area.start area.stop) :
    ∀ {cursor : ℕ} {space : VmSpace}, space.WellFormed → pageSize ∣ cursor → area.start ≤ cursor →
      ∃ space', VmSpace.insertGaps area cursor space = .ok () space' ∧ space'.WellFormed ∧
        ∀ addr, space'.access addr =
          if (cursor ≤ addr ∧ addr < area.stop) ∧ space.access addr = none then
            some (area.prot, area.kind)
          else space.access addr := by
  obtain ⟨-, hstop, -, hfloor, hceiling⟩ := hvalid
  intro cursor space h hcursor hfrom
  induction cursor, space using VmSpace.insertGaps.induct area with
  | case1 cursor space hlt a hfind ih =>
    -- The cursor stands on an area and goes to its end.
    obtain ⟨ha, hlow, hhigh⟩ := h.find_eq_some_iff.mp hfind
    obtain ⟨space', hrun, hspace', heffect⟩ :=
      ih h (h.valid a ha).2.1 (hfrom.trans hhigh.le)
    refine ⟨space', ?_, hspace', fun addr => ?_⟩
    · rw [insertGaps_of_find hlt hfind, hrun]
    · rw [heffect]
      by_cases hin : addr < a.stop ∧ cursor ≤ addr
      · have hmapped : space.access addr ≠ none := by
          have := h.find_eq_some_iff.mpr ⟨ha, hlow.trans hin.2, hin.1⟩
          simp [access, this]
        simp [hmapped]
      · congr 1
        simp only [eq_iff_iff]
        constructor <;> rintro ⟨hr, hnone⟩ <;> exact ⟨by omega, hnone⟩
  | case2 cursor space hlt hfind next ih =>
    obtain ⟨hnext, hle, -, -⟩ := gapEnd_spec space hlt
    have haligned := h.gapEnd_aligned hlt hstop
    obtain ⟨mid, hinsert, hmid, hmidEffect⟩ := h.insert
      { area with start := cursor, stop := next }
      ⟨hcursor, haligned, hnext, hfloor.trans hfrom, hle.trans hceiling⟩
      (gap_free hlt hfind)
    obtain ⟨space', hrun, hspace', heffect⟩ :=
      ih mid hmid haligned (hfrom.trans hnext.le)
    refine ⟨space', ?_, hspace', fun addr => ?_⟩
    · rw [insertGaps_of_gap hlt hfind hinsert, hrun]
    · rw [heffect, hmidEffect]
      -- No address of the gap had an access before.
      have hgap : cursor ≤ addr ∧ addr < next → space.access addr = none := by
        rintro ⟨hlow, hhigh⟩
        refine access_eq_none_iff.mpr (Intervals.lookup_eq_none_iff.mpr ?_)
        rintro a ha ⟨hstart, hend⟩
        have := overlaps_eq_false_iff.mp (gap_free hlt hfind) a ha
        omega
      by_cases hin : cursor ≤ addr ∧ addr < next
      · simp [hin, hgap hin]
        omega
      · simp only [if_neg hin]
        congr 1
        simp only [eq_iff_iff]
        constructor <;> rintro ⟨hr, hnone⟩ <;> exact ⟨by omega, hnone⟩
  | case3 cursor space hge =>
    refine ⟨space, ?_, h, fun addr => ?_⟩
    · rw [VmSpace.insertGaps, dif_neg hge]
    · rw [if_neg fun hin => hge (hin.1.1.trans_lt hin.1.2)]

/-- A valid area gives its access to exactly the addresses that had none. -/
theorem WellFormed.insertUncovered (h : space.WellFormed)
    (hvalid : rangeIsValid area.start area.stop) :
    ∃ space', VmSpace.insertUncovered area space = .ok () space' ∧ space'.WellFormed ∧
      ∀ addr, space'.access addr =
        if (area.start ≤ addr ∧ addr < area.stop) ∧ space.access addr = none then
          some (area.prot, area.kind)
        else space.access addr := by
  rw [VmSpace.insertUncovered, require_bind_run, if_pos hvalid]
  exact WellFormed.insertGaps hvalid h hvalid.1 (le_refl _)

/-! ## The page map -/

/-- Which access and kind every page has. -/
abbrev PageMap := ℕ → Option (UInt32 × AreaKind)

/-- The page map that a list of areas stands for. -/
def pages (space : VmSpace) : PageMap := fun page =>
  space.access (page * pageSize)

/-- The pages of the range `[start, stop)`. -/
def PageIn (start stop page : ℕ) : Prop :=
  start ≤ page * pageSize ∧ page * pageSize < stop

instance (start stop page : ℕ) : Decidable (PageIn start stop page) :=
  inferInstanceAs (Decidable (_ ∧ _))

/-- A valid range overlaps an area exactly if one of its pages is mapped. -/
theorem WellFormed.overlaps_iff (h : space.WellFormed) (hvalid : rangeIsValid start stop) :
    space.overlaps start stop = true ↔
      ∃ page, PageIn start stop page ∧ space.pages page ≠ none := by
  constructor
  · intro hover
    obtain ⟨a, ha, hmeet⟩ := List.any_eq_true.mp hover
    obtain ⟨hlow, hhigh⟩ := of_decide_eq_true hmeet
    -- The intersection starts at a page boundary.
    have haligned : pageSize ∣ max a.start start := by
      rcases max_choice a.start start with hc | hc <;> rw [hc]
      · exact (h.valid a ha).1
      · exact hvalid.1
    obtain ⟨page, hpage⟩ := haligned
    rw [mul_comm] at hpage
    have hproper := h.ordered.proper a ha
    have hvproper := hvalid.2.2.1
    refine ⟨page, ⟨by omega, by omega⟩, ?_⟩
    have hfind := h.find_eq_some_iff.mpr
      ⟨ha, (by omega : a.start ≤ page * pageSize), by omega⟩
    simp [pages, access, hfind]
  · rintro ⟨page, ⟨hlow, hhigh⟩, hmapped⟩
    by_contra hover
    have hfree := overlaps_eq_false_iff.mp (Bool.eq_false_iff.mpr hover)
    refine hmapped (access_eq_none_iff.mpr
      (Intervals.lookup_eq_none_iff.mpr ?_))
    rintro a ha ⟨hstart, hend⟩
    have := hfree a ha
    omega

end VmSpace

open VmSpace

/-- The calls that change an area list. -/
inductive VmCall
  | insert (area : VmArea)
  | insertUncovered (area : VmArea)
  | removeRange (start stop : ℕ)
  | setProt (start stop : ℕ) (prot : UInt32)

namespace VmCall

def run : VmCall → EStateM VmError VmSpace Unit
  | insert area => VmSpace.insert area
  | insertUncovered area => VmSpace.insertUncovered area
  | removeRange start stop => VmSpace.removeRange start stop
  | setProt start stop prot => VmSpace.setProt start stop prot

/-- The two calls that do not check their range are given one that is page
aligned and not reversed, and not empty where the access is changed. -/
def Checked : VmCall → Prop
  | insert _ => True
  | insertUncovered _ => True
  | removeRange start stop => pageSize ∣ start ∧ pageSize ∣ stop ∧ start ≤ stop
  | setProt start stop _ => pageSize ∣ start ∧ pageSize ∣ stop ∧ start < stop

instance : DecidablePred Checked
  | insert _ => inferInstanceAs (Decidable True)
  | insertUncovered _ => inferInstanceAs (Decidable True)
  | removeRange _ _ => inferInstanceAs (Decidable (_ ∧ _))
  | setProt _ _ _ => inferInstanceAs (Decidable (_ ∧ _))

open Classical in
/-- What a call is for: its effect on the page map, or why it is refused. -/
noncomputable def meaning (pages : PageMap) : VmCall → Except VmError PageMap
  | insert area =>
    if ¬rangeIsValid area.start area.stop then .error .invalid
    else if ∃ page, PageIn area.start area.stop page ∧ pages page ≠ none then
      .error .overlap
    else .ok fun page =>
      if PageIn area.start area.stop page then some (area.prot, area.kind)
      else pages page
  | insertUncovered area =>
    if ¬rangeIsValid area.start area.stop then .error .invalid
    else .ok fun page =>
      if PageIn area.start area.stop page ∧ pages page = none then
        some (area.prot, area.kind)
      else pages page
  | removeRange start stop => .ok fun page =>
    if PageIn start stop page then none else pages page
  | setProt start stop prot => .ok fun page =>
    if PageIn start stop page then
      (pages page).map fun old => (prot, old.2)
    else pages page

/-- The outcome of a call against its meaning: the page map changes as it says,
or the call is refused and nothing changes. -/
def Meets (call : VmCall) (space : VmSpace) : Prop :=
  match call.run space with
  | .ok _ space' => space'.WellFormed ∧ call.meaning space.pages = .ok space'.pages
  | .error e space' => space' = space ∧ call.meaning space.pages = .error e

variable {call : VmCall}

theorem meets_of_ok {pages : PageMap} (hmeaning : call.meaning space.pages = .ok pages)
    (h : ∃ space', call.run space = .ok () space' ∧ space'.WellFormed ∧
      ∀ page, space'.pages page = pages page) : call.Meets space := by
  obtain ⟨space', hrun, hwell, hpages⟩ := h
  rw [Meets, hrun]
  exact ⟨hwell, hmeaning.trans (congrArg _ (funext hpages).symm)⟩

theorem meets_of_error {e : VmError} (hmeaning : call.meaning space.pages = .error e)
    (hrun : call.run space = .error e space) : call.Meets space := by
  rw [Meets, hrun]
  exact ⟨rfl, hmeaning⟩

theorem meets_of_wellFormed (hcall : call.Checked) (h : space.WellFormed) : call.Meets space := by
  cases call with
  | insert area =>
    by_cases hvalid : rangeIsValid area.start area.stop
    · cases hover : space.overlaps area.start area.stop with
      | true =>
        have hmapped := (h.overlaps_iff hvalid).mp hover
        refine meets_of_error
          ((if_neg (not_not.mpr hvalid)).trans (if_pos hmapped)) ?_
        simp [run, insert_run, hvalid, hover]
      | false =>
        have hfree := mt (h.overlaps_iff hvalid).mpr (by simp [hover])
        obtain ⟨space', hrun, hwell, heffect⟩ := h.insert area hvalid hover
        refine meets_of_ok ((if_neg (not_not.mpr hvalid)).trans (if_neg hfree))
          ⟨space', hrun, hwell, fun page => heffect _⟩
    · exact meets_of_error (if_pos hvalid) (by simp [run, insert_run, hvalid])
  | insertUncovered area =>
    by_cases hvalid : rangeIsValid area.start area.stop
    · obtain ⟨space', hrun, hwell, heffect⟩ := h.insertUncovered hvalid
      exact meets_of_ok (if_neg (not_not.mpr hvalid))
        ⟨space', hrun, hwell, fun page => heffect _⟩
    · refine meets_of_error (if_pos hvalid) ?_
      rw [run, VmSpace.insertUncovered, require_bind_run, if_neg hvalid]
  | removeRange start stop =>
    obtain ⟨hstart, hstop, hle⟩ := hcall
    obtain ⟨space', hrun, hwell, heffect⟩ := h.removeRange hstart hstop hle
    exact meets_of_ok rfl ⟨space', hrun, hwell, fun page => heffect _⟩
  | setProt start stop prot =>
    obtain ⟨hstart, hstop, hlt⟩ := hcall
    obtain ⟨space', hrun, hwell, heffect⟩ := h.setProt hstart hstop hlt prot
    exact meets_of_ok rfl ⟨space', hrun, hwell, fun page => heffect _⟩

/-- The list after a sequence of calls, refused ones included. -/
def runAll (calls : List VmCall) (space : VmSpace) : VmSpace :=
  calls.foldl (fun space call => final call.run space) space

/-- A call keeps the list well formed, whatever its outcome. -/
theorem Meets.wellFormed (h : space.WellFormed) (hmeets : call.Meets space) :
    (final call.run space).WellFormed := by
  unfold Meets at hmeets
  cases hrun : call.run space with
  | ok _ space' =>
    rw [hrun] at hmeets
    rw [final_of_ok hrun]
    exact hmeets.1
  | error e space' =>
    rw [hrun] at hmeets
    rw [final_of_error hrun, hmeets.1]
    exact h

theorem runAll_wellFormed {calls : List VmCall} (hcalls : ∀ call ∈ calls, call.Checked)
    (h : space.WellFormed) : (runAll calls space).WellFormed := by
  induction calls generalizing space with
  | nil => exact h
  | cons call calls ih =>
    have hcall := hcalls call List.mem_cons_self
    exact ih (fun c hc => hcalls c (List.mem_cons_of_mem _ hc))
      ((meets_of_wellFormed hcall h).wellFormed h)

/-- Starting from no areas, every sequence of calls keeps the list well formed,
and every further call changes the page map as its meaning says or is refused
and changes nothing. -/
theorem runAll_refines_pageMap (calls : List VmCall) (hcalls : ∀ call ∈ calls, call.Checked) :
    (runAll calls {}).WellFormed ∧
      ∀ call : VmCall, call.Checked → call.Meets (runAll calls {}) := by
  have hwell := runAll_wellFormed hcalls wellFormed_empty
  exact ⟨hwell, fun call hcall => meets_of_wellFormed hcall hwell⟩

theorem runAll_refines_pageMap_cut :
    (VmCall.removeRange userFloor userCeiling).Meets
      (runAll [.insert ⟨userFloor, userFloor + 2 * pageSize, 3, .anon⟩,
        .setProt userFloor (userFloor + pageSize) 1] {}) :=
  (runAll_refines_pageMap _ (by decide)).2 _ (by decide)

/-- Cutting the middle bytes out of a page leaves areas that are not page
aligned. -/
theorem not_wellFormed_removeRange :
    ¬(runAll [.insert ⟨userFloor, userFloor + pageSize, 3, .anon⟩,
      .removeRange (userFloor + 1) (userFloor + 2)] {}).WellFormed := by
  intro h
  have haligned := (h.valid ⟨userFloor, userFloor + 1, 3, .anon⟩ (by decide)).2.1
  exact absurd haligned (by decide)

end VmCall

end RacOS.Mm
