import RacOS.Mm.VmSpace
import Mathlib.Order.Bounds.Basic

/-!
# The search for a free gap

`findFreeBelow` walks the areas from the top down.  At every area it either finds
room above it or goes on below it, and what it skips holds no range of the length
that is asked for.  So it finds the highest start, whatever the length and the
limit are; with a length and a limit of whole pages the start is that of a page.

The source computes on 64-bit words.  The sum of the lowest user address and the
length is the only one that can pass the largest word.
-/

namespace RacOS.Mm

/-- The result of a search for the largest element of a set. -/
def Largest (S : Set ℕ) : Option ℕ → Prop
  | some n => IsGreatest S n
  | none => S = ∅

theorem Largest.of_subset {S T : Set ℕ} {r : Option ℕ} (h : Largest S r) (hT : T ⊆ S)
    (hr : ∀ n, r = some n → n ∈ S → n ∈ T) : Largest T r := by
  cases r with
  | none => exact Set.subset_eq_empty hT h
  | some n => exact ⟨hr n rfl h.1, fun m hm => h.2 (hT hm)⟩

/-- The range of the length that begins at `start` lies in the user range, ends at
the limit or below it, and meets none of the areas. -/
structure Fits (areas : List VmArea) (len limit start : ℕ) : Prop where
  floor : userFloor ≤ start
  below : start + len ≤ limit
  free : ∀ a ∈ areas, a.stop ≤ start ∨ start + len ≤ a.start

namespace Fits

variable {a : VmArea} {below : List VmArea} {len limit start : ℕ}

/-- Below an area that leaves no room above it, the search starts anew. -/
theorem cons_iff_of_no_room (hlimit : a.start ≤ limit)
    (hroom : ∀ start, Fits (a :: below) len limit start → start < a.stop) :
    Fits (a :: below) len limit start ↔ Fits below len a.start start := by
  constructor
  · intro h
    refine ⟨h.floor, ?_, fun b hb => h.free b (List.mem_cons_of_mem _ hb)⟩
    rcases h.free a List.mem_cons_self with hstop | hstart
    · exact absurd (hroom start h) (not_lt.mpr hstop)
    · exact hstart
  · intro h
    refine ⟨h.floor, h.below.trans hlimit, ?_⟩
    exact List.forall_mem_cons.mpr ⟨Or.inr h.below, h.free⟩

/-- An area above the limit is in nobody's way. -/
theorem cons_iff_of_above (hlimit : limit ≤ a.start) :
    Fits (a :: below) len limit start ↔ Fits below len limit start := by
  constructor
  · exact fun h => ⟨h.floor, h.below, fun b hb => h.free b (List.mem_cons_of_mem _ hb)⟩
  · exact fun h => ⟨h.floor, h.below,
      List.forall_mem_cons.mpr ⟨Or.inr (h.below.trans hlimit), h.free⟩⟩

end Fits

namespace VmSpace

variable {areas : List VmArea}

/-- Over areas in descending order the walk finds the highest start that fits. -/
theorem freeBelow_largest (len : ℕ) (hproper : ∀ a ∈ areas, a.start < a.stop)
    (hdown : areas.Pairwise fun a b => b.stop ≤ a.start) (limit : ℕ) :
    Largest {start | Fits areas len limit start} (freeBelow len areas limit) := by
  induction areas generalizing limit with
  | nil =>
    unfold freeBelow
    split_ifs with hroom
    · refine ⟨⟨by omega, by omega, nofun⟩, fun start h => ?_⟩
      have := h.below
      omega
    · refine Set.eq_empty_of_forall_notMem fun start h => hroom ?_
      have := h.floor
      have := h.below
      omega
  | cons a below ih =>
    obtain ⟨ha, hbelow⟩ := List.forall_mem_cons.mp hproper
    obtain ⟨hlater, hrest⟩ := List.pairwise_cons.mp hdown
    -- the search below the area, when there is no room above it
    have hskip (hlimit : a.start ≤ limit)
        (hroom : ∀ start, Fits (a :: below) len limit start → start < a.stop) :
        Largest {start | Fits (a :: below) len limit start}
          (freeBelow len below a.start) := by
      have hset : {start | Fits (a :: below) len limit start} =
          {start | Fits below len a.start start} :=
        Set.ext fun start => Fits.cons_iff_of_no_room hlimit hroom
      rw [hset]
      exact ih hbelow hrest a.start
    unfold freeBelow
    split_ifs with hstop hroom hstart
    · obtain ⟨hlen, hfloor⟩ := hroom
      refine ⟨⟨hfloor, by omega, ?_⟩, fun start h => ?_⟩
      · refine List.forall_mem_cons.mpr ⟨Or.inl (by omega), fun b hb => Or.inl ?_⟩
        have := hlater b hb
        omega
      · have := h.below
        omega
    · refine hskip (ha.le.trans hstop) fun start h => ?_
      by_contra hge
      have := h.floor
      have := h.below
      exact hroom (by omega)
    · refine hskip hstart.le fun start h => ?_
      have := h.below
      omega
    · have hset : {start | Fits (a :: below) len limit start} =
          {start | Fits below len limit start} :=
        Set.ext fun start => Fits.cons_iff_of_above (not_lt.mp hstart)
      rw [hset]
      exact ih hbelow hrest limit

/-- With whole pages everywhere the start that is found is that of a page. -/
theorem dvd_of_freeBelow {len : ℕ} (hlen : pageSize ∣ len)
    (hareas : ∀ a ∈ areas, pageSize ∣ a.start) {limit start : ℕ} (hlimit : pageSize ∣ limit)
    (h : freeBelow len areas limit = some start) : pageSize ∣ start := by
  induction areas generalizing limit with
  | nil =>
    unfold freeBelow at h
    split_ifs at h
    cases h
    exact Nat.dvd_sub hlimit hlen
  | cons a below ih =>
    obtain ⟨ha, hbelow⟩ := List.forall_mem_cons.mp hareas
    unfold freeBelow at h
    split_ifs at h
    · cases h
      exact Nat.dvd_sub hlimit hlen
    · exact ih hbelow ha h
    · exact ih hbelow ha h
    · exact ih hbelow hlimit h

/-! ## On 64-bit words -/

/-- The walk as the source computes it. -/
def freeBelow64 (len : UInt64) : List VmArea → UInt64 → Option UInt64
  | [], limit =>
    if UInt64.ofNat userFloor + len ≤ limit then some (limit - len) else none
  | a :: below, limit =>
    if UInt64.ofNat a.stop ≤ limit then
      if len ≤ limit - UInt64.ofNat a.stop ∧ UInt64.ofNat userFloor ≤ limit - len then
        some (limit - len)
      else freeBelow64 len below (UInt64.ofNat a.start)
    else if UInt64.ofNat a.start < limit then
      freeBelow64 len below (UInt64.ofNat a.start)
    else freeBelow64 len below limit

/-- Highest-placed free gap of `len` bytes below `top`, or none. -/
def findFreeBelow64 (space : VmSpace) (len top : UInt64) : Option UInt64 :=
  freeBelow64 len space.areas.reverse (min top (UInt64.ofNat userCeiling))

/-- As long as the one sum does not pass the largest word, the words compute what
the numbers do. -/
theorem map_freeBelow64 {len : UInt64} (hlen : userFloor + len.toNat < 2 ^ 64)
    (hproper : ∀ a ∈ areas, a.start < a.stop) (hbound : ∀ a ∈ areas, a.stop ≤ userCeiling)
    (limit : UInt64) :
    (freeBelow64 len areas limit).map UInt64.toNat = freeBelow len.toNat areas limit.toNat := by
  have hfloor : (UInt64.ofNat userFloor).toNat = userFloor := by decide
  induction areas generalizing limit with
  | nil =>
    have hsum : (UInt64.ofNat userFloor + len).toNat = userFloor + len.toNat := by
      rw [UInt64.toNat_add, hfloor, Nat.mod_eq_of_lt hlen]
    unfold freeBelow64 freeBelow
    simp only [UInt64.le_iff_toNat_le, hsum]
    split_ifs with hroom
    · rw [Option.map_some, UInt64.toNat_sub_of_le]
      rw [UInt64.le_iff_toNat_le]
      omega
    · rfl
  | cons a below ih =>
    obtain ⟨ha, hbelow⟩ := List.forall_mem_cons.mp hproper
    obtain ⟨hstop, hbounds⟩ := List.forall_mem_cons.mp hbound
    have hstop64 : (UInt64.ofNat a.stop).toNat = a.stop :=
      UInt64.toNat_ofNat_of_lt' (lt_of_le_of_lt hstop (by decide))
    have hstart64 : (UInt64.ofNat a.start).toNat = a.start :=
      UInt64.toNat_ofNat_of_lt' (lt_of_lt_of_le ha (hstop.trans (by decide)))
    have hskip := ih hbelow hbounds (UInt64.ofNat a.start)
    rw [hstart64] at hskip
    unfold freeBelow64 freeBelow
    by_cases habove : a.stop ≤ limit.toNat
    · have hle : UInt64.ofNat a.stop ≤ limit := by rwa [UInt64.le_iff_toNat_le, hstop64]
      rw [if_pos hle, if_pos habove]
      have hroom : len ≤ limit - UInt64.ofNat a.stop ↔ len.toNat ≤ limit.toNat - a.stop := by
        rw [UInt64.le_iff_toNat_le, UInt64.toNat_sub_of_le _ _ hle, hstop64]
      by_cases hfits : len.toNat ≤ limit.toNat - a.stop
      · have hsub : (limit - len).toNat = limit.toNat - len.toNat :=
          UInt64.toNat_sub_of_le _ _ (by rw [UInt64.le_iff_toNat_le]; omega)
        simp only [hroom, hfits, UInt64.le_iff_toNat_le, hfloor, hsub, true_and]
        split_ifs
        · rw [Option.map_some, hsub]
        · exact hskip
      · simp only [hroom, hfits, false_and, if_false]
        exact hskip
    · have hle : ¬UInt64.ofNat a.stop ≤ limit := by
        rwa [UInt64.le_iff_toNat_le, hstop64]
      rw [if_neg hle, if_neg habove]
      simp only [UInt64.lt_iff_toNat_lt, hstart64]
      split_ifs
      · exact hskip
      · exact ih hbelow hbounds limit

variable {space : VmSpace}

theorem map_findFreeBelow64 (h : space.WellFormed) {len : UInt64}
    (hlen : userFloor + len.toNat < 2 ^ 64) (top : UInt64) :
    (space.findFreeBelow64 len top).map UInt64.toNat = space.findFreeBelow len.toNat top.toNat := by
  have hmin : (min top (UInt64.ofNat userCeiling)).toNat = min top.toNat userCeiling := by
    have hceiling : (UInt64.ofNat userCeiling).toNat = userCeiling := by decide
    change (if top ≤ UInt64.ofNat userCeiling then top else UInt64.ofNat userCeiling).toNat = _
    split_ifs with hle
    · rw [UInt64.le_iff_toNat_le, hceiling] at hle
      rw [min_eq_left hle]
    · rw [UInt64.le_iff_toNat_le, hceiling] at hle
      rw [min_eq_right (not_le.mp hle).le, hceiling]
  unfold findFreeBelow64 findFreeBelow
  rw [map_freeBelow64 hlen, hmin]
  · exact fun a ha => h.ordered.proper a (List.mem_reverse.mp ha)
  · exact fun a ha => (h.valid a (List.mem_reverse.mp ha)).2.2.2.2

/-- The starts of the free ranges of a length below an address. -/
def freeStarts (space : VmSpace) (len top : ℕ) : Set ℕ :=
  {start | userFloor ≤ start ∧ start + len ≤ min top userCeiling ∧
    space.overlaps start (start + len) = false}

/-- The starts of the valid ranges of a length that are free and below an
address. -/
def validStarts (space : VmSpace) (len top : ℕ) : Set ℕ :=
  {start | rangeIsValid start (start + len) ∧ start + len ≤ top ∧
    space.overlaps start (start + len) = false}

theorem findFreeBelow_largest (h : space.WellFormed) (len top : ℕ) :
    Largest (space.freeStarts len top) (space.findFreeBelow len top) := by
  have hset : space.freeStarts len top =
      {start | Fits space.areas.reverse len (min top userCeiling) start} := by
    ext start
    simp only [freeStarts, Set.mem_ofPred_eq, overlaps_eq_false_iff]
    constructor
    · exact fun ⟨hfloor, hbelow, hfree⟩ =>
        ⟨hfloor, hbelow, fun a ha => hfree a (List.mem_reverse.mp ha)⟩
    · exact fun ⟨hfloor, hbelow, hfree⟩ =>
        ⟨hfloor, hbelow, fun a ha => hfree a (List.mem_reverse.mpr ha)⟩
  rw [hset]
  refine freeBelow_largest len (fun a ha => ?_) ?_ _
  · exact h.ordered.proper a (List.mem_reverse.mp ha)
  · exact List.pairwise_reverse.mpr h.ordered.pairwise

/-- With whole pages the highest free start is the highest valid one. -/
theorem findFreeBelow_largest_valid (h : space.WellFormed) {len top : ℕ} (hpos : 0 < len)
    (hlen : pageSize ∣ len) (htop : pageSize ∣ top) :
    Largest (space.validStarts len top) (space.findFreeBelow len top) := by
  refine (findFreeBelow_largest h len top).of_subset ?_ fun start hstart hfree => ?_
  · rintro start ⟨⟨-, -, -, hfloor, hceiling⟩, hbelow, hfree⟩
    exact ⟨hfloor, le_min hbelow hceiling, hfree⟩
  · obtain ⟨hfloor, hbelow, hfree⟩ := hfree
    have hlimit : pageSize ∣ min top userCeiling := by
      rcases min_choice top userCeiling with hmin | hmin
      · rwa [hmin]
      · rw [hmin]
        decide
    have hdvd : pageSize ∣ start := dvd_of_freeBelow hlen
      (fun a ha => (h.valid a (List.mem_reverse.mp ha)).1) hlimit hstart
    exact ⟨⟨hdvd, Nat.dvd_add hdvd hlen, by omega, hfloor, hbelow.trans (min_le_right _ _)⟩,
      hbelow.trans (min_le_left _ _), hfree⟩

/-- For every length that leaves the sum within a word, the search returns the
highest free start; for whole pages it is the highest page-aligned start whose
whole range is valid, free and below the address. -/
theorem findFreeBelow64_largest {space : VmSpace} (h : space.WellFormed)
    (len top : UInt64) (hlen : userFloor + len.toNat < 2 ^ 64) :
    Largest (space.freeStarts len.toNat top.toNat)
        ((space.findFreeBelow64 len top).map UInt64.toNat) ∧
      (0 < len.toNat → pageSize ∣ len.toNat → pageSize ∣ top.toNat →
        Largest (space.validStarts len.toNat top.toNat)
          ((space.findFreeBelow64 len top).map UInt64.toNat)) := by
  rw [map_findFreeBelow64 h hlen]
  exact ⟨findFreeBelow_largest h _ _, findFreeBelow_largest_valid h⟩

theorem findFreeBelow64_largest_empty :
    Largest (validStarts {} 4096 mmapTop) (some (mmapTop - 4096)) :=
  (findFreeBelow64_largest wellFormed_empty 4096 (UInt64.ofNat mmapTop)
    (by decide)).2 (by decide) (by decide) (by decide)

/-- One byte below the top of the mappings gives a start that is no page's, and a
length near the largest word gives a start although no range of that length is
in the user range. -/
theorem findFreeBelow64_unaligned_or_wrapped :
    (findFreeBelow64 {} 1 (UInt64.ofNat mmapTop) = some (UInt64.ofNat (mmapTop - 1)) ∧
        ¬pageSize ∣ mmapTop - 1 ∧ validStarts {} 1 mmapTop = ∅) ∧
      (findFreeBelow64 {} (UInt64.ofNat (2 ^ 64 - 4096)) (UInt64.ofNat mmapTop) =
          some (UInt64.ofNat (mmapTop + 4096)) ∧
        validStarts {} (2 ^ 64 - 4096) mmapTop = ∅) := by
  refine ⟨⟨by decide, by decide, ?_⟩, by decide, ?_⟩
  · refine Set.eq_empty_of_forall_notMem fun start h => ?_
    obtain ⟨⟨hstart, hstop, -⟩, -⟩ := h
    have : pageSize ∣ 1 := (Nat.dvd_add_right hstart).mp hstop
    revert this
    decide
  · refine Set.eq_empty_of_forall_notMem fun start h => ?_
    obtain ⟨⟨-, -, -, -, hceiling⟩, -⟩ := h
    have : start + (2 ^ 64 - 4096) ≤ 0x800000000000 := hceiling
    omega

end VmSpace

end RacOS.Mm
