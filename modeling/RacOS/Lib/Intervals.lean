import Mathlib.Data.List.InsertIdx
import Mathlib.Order.Nat

/-!
# Lists of disjoint intervals

A list of items, each with a half-open interval `[lo a, hi a)` of natural
numbers, in ascending order and without overlap.  Such a list is a finite
partial map from points to items.  It stays one when every item is replaced by
pieces of itself, and when an item is inserted into a gap.
-/

namespace Intervals

variable {α : Type} (lo hi : α → ℕ)

/-- The point lies in the interval of the item. -/
def Covers (x : ℕ) (a : α) : Prop := lo a ≤ x ∧ x < hi a

instance (x : ℕ) : DecidablePred (Covers lo hi x) := fun _ =>
  inferInstanceAs (Decidable (_ ∧ _))

/-- The intervals are not empty and follow each other. -/
structure Ordered (l : List α) : Prop where
  proper : ∀ a ∈ l, lo a < hi a
  pairwise : l.Pairwise fun a b => hi a ≤ lo b

/-- The item whose interval holds the point. -/
def lookup (l : List α) (x : ℕ) : Option α := l.find? (Covers lo hi x)

variable {lo hi} {l : List α} {a : α} {x : ℕ}

@[simp] theorem Ordered.nil : Ordered lo hi ([] : List α) :=
  ⟨fun _ h => absurd h List.not_mem_nil, List.Pairwise.nil⟩

@[simp] theorem ordered_cons : Ordered lo hi (a :: l) ↔
    lo a < hi a ∧ (∀ b ∈ l, hi a ≤ lo b) ∧ Ordered lo hi l := by
  constructor
  · rintro ⟨hproper, hpairwise⟩
    obtain ⟨hlater, hrest⟩ := List.pairwise_cons.mp hpairwise
    exact ⟨hproper a List.mem_cons_self, hlater,
      fun b hb => hproper b (List.mem_cons_of_mem _ hb), hrest⟩
  · rintro ⟨ha, hlater, hproper, hpairwise⟩
    exact ⟨List.forall_mem_cons.mpr ⟨ha, hproper⟩, List.pairwise_cons.mpr ⟨hlater, hpairwise⟩⟩

@[simp] theorem lookup_nil : lookup lo hi ([] : List α) x = none := rfl

@[simp] theorem lookup_cons : lookup lo hi (a :: l) x =
    if Covers lo hi x a then some a else lookup lo hi l x := by
  simp only [lookup, List.find?_cons]
  by_cases h : Covers lo hi x a <;> simp [h]

theorem lookup_eq_none_iff : lookup lo hi l x = none ↔ ∀ a ∈ l, ¬Covers lo hi x a := by
  simp [lookup, List.find?_eq_none]

/-- A point is covered once, so that looking it up finds the item that covers
it. -/
theorem Ordered.lookup_eq_some_iff (h : Ordered lo hi l) :
    lookup lo hi l x = some a ↔ a ∈ l ∧ Covers lo hi x a := by
  induction l with
  | nil => simp [lookup]
  | cons b l ih =>
    obtain ⟨-, hlater, hrest⟩ := ordered_cons.mp h
    by_cases hb : Covers lo hi x b
    · rw [lookup_cons, if_pos hb]
      constructor
      · rintro ⟨⟩
        exact ⟨List.mem_cons_self, hb⟩
      · rintro ⟨hmem, ha⟩
        rcases List.mem_cons.mp hmem with rfl | hmem
        · rfl
        · -- Both intervals hold the point, but one ends before the other.
          have hle := hlater a hmem
          exact absurd ha.1 (not_le.mpr (hb.2.trans_le hle))
    · rw [lookup_cons, if_neg hb, ih hrest]
      constructor
      · rintro ⟨hmem, ha⟩
        exact ⟨List.mem_cons_of_mem _ hmem, ha⟩
      · rintro ⟨hmem, ha⟩
        rcases List.mem_cons.mp hmem with rfl | hmem
        · exact absurd ha hb
        · exact ⟨hmem, ha⟩

/-- Every item may be replaced by pieces that lie inside it. -/
theorem Ordered.flatMap (h : Ordered lo hi l) {f : α → List α}
    (hf : ∀ a ∈ l, Ordered lo hi (f a) ∧ ∀ b ∈ f a, lo a ≤ lo b ∧ hi b ≤ hi a) :
    Ordered lo hi (l.flatMap f) where
  proper b hb := by
    obtain ⟨a, ha, hb⟩ := List.mem_flatMap.mp hb
    exact (hf a ha).1.proper b hb
  pairwise := by
    rw [List.flatMap, List.pairwise_flatten]
    constructor
    · intro pieces hpieces
      obtain ⟨a, ha, rfl⟩ := List.mem_map.mp hpieces
      exact (hf a ha).1.pairwise
    · rw [List.pairwise_map]
      refine h.pairwise.imp_of_mem ?_
      intro a b ha hb hle c hc d hd
      exact ((hf a ha).2 c hc).2.trans (hle.trans ((hf b hb).2 d hd).1)

/-- A point of the refined list lies in a piece of the item that covered it. -/
theorem Ordered.lookup_flatMap (h : Ordered lo hi l) {f : α → List α}
    (hf : ∀ a ∈ l, Ordered lo hi (f a) ∧ ∀ b ∈ f a, lo a ≤ lo b ∧ hi b ≤ hi a) :
    lookup lo hi (l.flatMap f) x = (lookup lo hi l x).bind fun a => lookup lo hi (f a) x := by
  ext b
  rw [(h.flatMap hf).lookup_eq_some_iff, Option.bind_eq_some_iff, List.mem_flatMap]
  constructor
  · rintro ⟨⟨a, ha, hb⟩, hcov⟩
    have hin := (hf a ha).2 b hb
    have hcova : Covers lo hi x a :=
      ⟨hin.1.trans hcov.1, hcov.2.trans_le hin.2⟩
    exact ⟨a, h.lookup_eq_some_iff.mpr ⟨ha, hcova⟩, (hf a ha).1.lookup_eq_some_iff.mpr ⟨hb, hcov⟩⟩
  · rintro ⟨a, ha, hb⟩
    obtain ⟨ha, -⟩ := h.lookup_eq_some_iff.mp ha
    obtain ⟨hb, hcov⟩ := (hf a ha).1.lookup_eq_some_iff.mp hb
    exact ⟨⟨a, ha, hb⟩, hcov⟩

/-- The list with an item put before the first one that starts later. -/
def insert (lo : α → ℕ) (a : α) (l : List α) : List α :=
  l.insertIdx (l.findIdx fun b => lo a < lo b) a

theorem insert_cons {b : α} :
    insert lo a (b :: l) = if lo a < lo b then a :: b :: l else b :: insert lo a l := by
  by_cases hlt : lo a < lo b <;> simp [insert, List.findIdx_cons, hlt]

theorem mem_insert {b : α} : b ∈ insert lo a l ↔ b = a ∨ b ∈ l := by
  induction l with
  | nil => simp [insert]
  | cons c l ih =>
    rw [insert_cons]
    split
    · exact List.mem_cons
    · rw [List.mem_cons, ih, List.mem_cons]
      exact or_left_comm

/-- An item that meets no other one may be inserted. -/
theorem Ordered.insert (h : Ordered lo hi l) (ha : lo a < hi a)
    (hfree : ∀ b ∈ l, hi b ≤ lo a ∨ hi a ≤ lo b) : Ordered lo hi (Intervals.insert lo a l) := by
  induction l with
  | nil => simpa [Intervals.insert] using ha
  | cons c l ih =>
    obtain ⟨hc, hlater, hrest⟩ := ordered_cons.mp h
    rw [insert_cons]
    split
    · rename_i hlt
      -- The item goes first, so it ends before `c` and all that follow.
      refine ordered_cons.mpr ⟨ha, fun b hb => ?_, h⟩
      have hstart : lo c ≤ lo b := by
        rcases List.mem_cons.mp hb with rfl | hb
        · exact le_refl _
        · exact hc.le.trans (hlater b hb)
      have hb' := h.proper b hb
      rcases hfree b hb with hle | hle <;> omega
    · rename_i hge
      refine ordered_cons.mpr ⟨hc, fun b hb => ?_,
        ih hrest fun b hb => hfree b (List.mem_cons_of_mem _ hb)⟩
      rcases mem_insert.mp hb with rfl | hb
      · rcases hfree c List.mem_cons_self with hle | hle
        · exact hle
        · omega
      · exact hlater b hb

/-- After an insertion the new item covers its own points. -/
theorem Ordered.lookup_insert (h : Ordered lo hi l) (ha : lo a < hi a)
    (hfree : ∀ b ∈ l, hi b ≤ lo a ∨ hi a ≤ lo b) :
    lookup lo hi (Intervals.insert lo a l) x =
      if Covers lo hi x a then some a else lookup lo hi l x := by
  ext b
  rw [(h.insert ha hfree).lookup_eq_some_iff, mem_insert]
  split
  · rename_i hcov
    rw [Option.some_inj]
    constructor
    · rintro ⟨rfl | hb, hcovb⟩
      · rfl
      · have := hcov.1; have := hcov.2; have := hcovb.1; have := hcovb.2
        rcases hfree b hb with hle | hle <;> omega
    · rintro rfl
      exact ⟨Or.inl rfl, hcov⟩
  · rename_i hcov
    rw [h.lookup_eq_some_iff]
    constructor
    · rintro ⟨rfl | hb, hcovb⟩
      · exact absurd hcovb hcov
      · exact ⟨hb, hcovb⟩
    · rintro ⟨hb, hcovb⟩
      exact ⟨Or.inr hb, hcovb⟩

end Intervals
