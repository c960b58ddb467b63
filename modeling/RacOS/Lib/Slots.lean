import Mathlib.Data.List.Basic
import Mathlib.Order.Nat

/-!
# Tables of slots

A table is a list of slots, each empty or holding an item, addressed by index.
Items are updated in place, put into the first empty slot, and taken out
leaving their slot empty.  Every operation is described by what it does to the
contents of each index.
-/

namespace Slots

variable {α : Type}

/-- The item in a slot. -/
def get (l : List (Option α)) (i : ℕ) : Option α := l[i]?.join

@[simp] theorem get_nil (i : ℕ) : get ([] : List (Option α)) i = none := rfl

@[simp] theorem get_cons_zero (a : Option α) (l : List (Option α)) : get (a :: l) 0 = a := by
  simp [get]

@[simp] theorem get_cons_succ (a : Option α) (l : List (Option α)) (i : ℕ) :
    get (a :: l) (i + 1) = get l i := by
  simp [get]

variable {i : ℕ} {a : α} {l l' : List (Option α)}

theorem lt_length_of_get (h : get l i = some a) : i < l.length := by
  by_contra hge
  simp [get, List.getElem?_eq_none (not_lt.mp hge)] at h

/-- Every item satisfies `p`. -/
def all (p : α → Bool) (l : List (Option α)) : Bool := l.all fun a => a.all p

variable {p : α → Bool}

theorem all_get (h : all p l = true) {i : ℕ} {a : α}
    (ha : get l i = some a) : p a = true := by
  have hi := lt_length_of_get ha
  have hitem : l[i] = some a := by
    simpa [get, List.getElem?_eq_getElem hi] using ha
  have := List.all_eq_true.mp h l[i] (List.getElem_mem hi)
  simpa [hitem] using this

theorem all_of_get (h : ∀ i a, get l i = some a → p a = true) :
    all p l = true := by
  refine List.all_eq_true.mpr fun x hx => ?_
  obtain ⟨i, hi, rfl⟩ := List.mem_iff_getElem.mp hx
  cases hitem : l[i] with
  | none => rfl
  | some a => exact h i a (by simp [get, List.getElem?_eq_getElem hi, hitem])

/-- At most one item satisfies `p`. -/
def AtMostOne (p : α → Bool) (l : List (Option α)) : Prop :=
  ∀ i < l.length, ∀ j < l.length, (get l i).any p = true → (get l j).any p = true → i = j

instance (p : α → Bool) (l : List (Option α)) : Decidable (AtMostOne p l) :=
  inferInstanceAs (Decidable (∀ i < l.length, ∀ j < l.length, _ → _ → _))

theorem AtMostOne.eq (h : AtMostOne p l) {i j : ℕ} {a b : α}
    (ha : get l i = some a) (hb : get l j = some b) (hpa : p a = true) (hpb : p b = true) : i = j :=
  h i (lt_length_of_get ha) j (lt_length_of_get hb) (by simp [ha, hpa])
    (by simp [hb, hpb])

theorem AtMostOne.of_get (h : AtMostOne p l)
    (hback : ∀ i b, get l' i = some b → p b = true →
      ∃ a, get l i = some a ∧ p a = true) : AtMostOne p l' := by
  have hback' {i : ℕ} (hi : (get l' i).any p = true) : ∃ a, get l i = some a ∧ p a = true := by
    cases hb : get l' i with
    | none => simp [hb] at hi
    | some b => exact hback i b hb (by simpa [hb] using hi)
  intro i _ j _ hi hj
  obtain ⟨a, ha, hpa⟩ := hback' hi
  obtain ⟨b, hb, hpb⟩ := hback' hj
  exact h.eq ha hb hpa hpb

/-- Update every item. -/
def map (f : α → α) (l : List (Option α)) : List (Option α) :=
  l.map (Option.map f)

@[simp] theorem get_map (f : α → α) (l : List (Option α)) (i : ℕ) :
    get (map f l) i = (get l i).map f := by
  simp only [get, map, List.getElem?_map]
  cases l[i]? <;> rfl

@[simp] theorem length_map (f : α → α) (l : List (Option α)) : (map f l).length = l.length :=
  List.length_map _

/-- Update the item in one slot. -/
def modify (i : ℕ) (f : α → α) (l : List (Option α)) : List (Option α) :=
  l.modify i (Option.map f)

theorem get_modify (i j : ℕ) (f : α → α) (l : List (Option α)) :
    get (modify i f l) j = if i = j then (get l j).map f else get l j := by
  simp only [get, modify, List.getElem?_modify]
  by_cases h : i = j
  · simp only [h, if_true]
    cases l[j]? <;> rfl
  · simp only [h, if_false]
    cases l[j]? <;> rfl

@[simp] theorem length_modify (i : ℕ) (f : α → α) (l : List (Option α)) :
    (modify i f l).length = l.length :=
  List.length_modify _ _ _

/-- The index of the first item that satisfies `p`. -/
def find (p : α → Bool) (l : List (Option α)) : Option ℕ :=
  l.findIdx? fun a => a.any p

theorem find_eq_none (h : find p l = none) (hget : get l i = some a) :
    p a = false := by
  have hi := lt_length_of_get hget
  have hitem : l[i] = some a := by
    simpa [get, List.getElem?_eq_getElem hi] using hget
  have := List.findIdx?_eq_none_iff.mp h l[i] (List.getElem_mem hi)
  simpa [hitem] using this

theorem find_eq_some (h : find p l = some i) :
    ∃ a, get l i = some a ∧ p a = true ∧ ∀ j < i, ∀ b, get l j = some b → p b = false := by
  obtain ⟨hi, hp, hearlier⟩ := List.findIdx?_eq_some_iff_getElem.mp h
  cases hitem : l[i] with
  | none => simp [hitem] at hp
  | some a =>
    refine ⟨a, by simp [get, List.getElem?_eq_getElem hi, hitem],
      by simpa [hitem] using hp, fun j hj b hb => ?_⟩
    have hjl := hj.trans hi
    have hitem' : l[j] = some b := by
      simpa [get, List.getElem?_eq_getElem hjl] using hb
    simpa [hitem'] using hearlier j hj

/-- The index found depends only on which items satisfy `p`. -/
theorem find_congr (hlen : l.length = l'.length)
    (h : ∀ i, (get l i).any p = (get l' i).any p) : find p l = find p l' := by
  have hmap : l.map (fun a => a.any p) = l'.map (fun a => a.any p) := by
    apply List.ext_getElem
    · rw [List.length_map, List.length_map, hlen]
    · intro i hi hi'
      rw [List.length_map] at hi hi'
      have hitem := h i
      simp only [get, List.getElem?_eq_getElem hi, List.getElem?_eq_getElem hi',
        Option.join_some] at hitem
      rw [List.getElem_map, List.getElem_map, hitem]
  have hfind : ∀ m : List (Option α), find p m = (m.map fun a => a.any p).findIdx? id := by
    intro m
    rw [List.findIdx?_map]
    rfl
  rw [hfind, hfind, hmap]

/-- Update the first item that satisfies `p`. -/
def modifyFirst (p : α → Bool) (f : α → α) (l : List (Option α)) : List (Option α) :=
  match find p l with
  | some i => modify i f l
  | none => l

theorem get_modifyFirst (p : α → Bool) (f : α → α) (l : List (Option α)) (i : ℕ) :
    get (modifyFirst p f l) i = if find p l = some i then (get l i).map f else get l i := by
  unfold modifyFirst
  cases h : find p l with
  | none => simp
  | some j => simp [get_modify]

@[simp] theorem length_modifyFirst (p : α → Bool) (f : α → α) (l : List (Option α)) :
    (modifyFirst p f l).length = l.length := by
  unfold modifyFirst
  cases find p l with
  | none => rfl
  | some i => exact length_modify i f l

/-- The first empty slot, or the index after the last one. -/
def firstEmpty (l : List (Option α)) : ℕ := l.findIdx Option.isNone

/-- Put an item into the first empty slot, or into a new one. -/
def place (a : α) (l : List (Option α)) : List (Option α) :=
  if firstEmpty l < l.length then l.set (firstEmpty l) (some a)
  else l ++ [some a]

theorem get_firstEmpty (l : List (Option α)) : get l (firstEmpty l) = none := by
  by_cases h : firstEmpty l < l.length
  · have hempty : (l[firstEmpty l]).isNone = true := List.findIdx_getElem
    simp [get, List.getElem?_eq_getElem h, Option.isNone_iff_eq_none.mp hempty]
  · simp [get, List.getElem?_eq_none (not_lt.mp h)]

theorem get_place (a : α) (l : List (Option α)) (i : ℕ) :
    get (place a l) i = if i = firstEmpty l then some a else get l i := by
  unfold place
  split
  · rename_i h
    simp only [get, List.getElem?_set]
    by_cases hi : firstEmpty l = i
    · subst hi
      simp [h]
    · simp [hi, Ne.symm hi]
  · rename_i h
    have hlen : firstEmpty l = l.length :=
      le_antisymm List.findIdx_le_length (not_lt.mp h)
    rw [hlen]
    rcases lt_trichotomy i l.length with hi | rfl | hi
    · simp [get, List.getElem?_append_left hi, hi.ne]
    · simp [get]
    · have hnew : (l ++ [some a])[i]? = none :=
        List.getElem?_eq_none (by simpa using Nat.succ_le_of_lt hi)
      simp [get, hnew, hi.ne', List.getElem?_eq_none hi.le]

theorem get_place_self (a : α) (l : List (Option α)) : get (place a l) (firstEmpty l) = some a := by
  rw [get_place, if_pos rfl]

/-- A filled slot is not the one that is given out. -/
theorem ne_firstEmpty (h : get l i = some a) : i ≠ firstEmpty l := by
  rintro rfl
  rw [get_firstEmpty] at h
  cases h

theorem get_place_of_get (b : α) (h : get l i = some a) :
    get (place b l) i = some a := by
  rw [get_place, if_neg (ne_firstEmpty h), h]

/-- What is in a slot is the new item or was there before. -/
theorem get_place_cases {a b : α} (h : get (place a l) i = some b) :
    (i = firstEmpty l ∧ b = a) ∨ get l i = some b := by
  rw [get_place] at h
  split at h
  · rename_i hi
    exact .inl ⟨hi, (Option.some.inj h).symm⟩
  · exact .inr h

/-- The number of slots that hold an item. -/
def count (l : List (Option α)) : ℕ := l.countP Option.isSome

/-- A table grows only when an item is placed and all its slots are taken. -/
theorem length_place (a : α) (l : List (Option α)) :
    (place a l).length = max l.length (count l + 1) := by
  have hle : count l ≤ l.length := List.countP_le_length
  unfold place
  split
  · rename_i hempty
    have hsome : ∃ b ∈ l, ¬Option.isSome b = true :=
      ⟨l[firstEmpty l], List.getElem_mem hempty, by
        have hnone : (l[firstEmpty l]).isNone = true := List.findIdx_getElem
        simpa using hnone⟩
    have hlt : count l < l.length := by
      refine lt_of_le_of_ne hle fun heq => ?_
      obtain ⟨b, hb, hnot⟩ := hsome
      exact hnot (List.countP_eq_length.mp heq b hb)
    simp only [List.length_set]
    omega
  · rename_i hfull
    have hall : count l = l.length := by
      refine List.countP_eq_length.mpr fun b hb => ?_
      by_contra hnone
      exact hfull (List.findIdx_lt_length_of_exists ⟨b, hb, by simpa using hnone⟩)
    simp only [List.length_append, List.length_singleton]
    omega

/-- Empty a slot. -/
def clear (i : ℕ) (l : List (Option α)) : List (Option α) := l.set i none

@[simp] theorem length_clear (i : ℕ) (l : List (Option α)) : (clear i l).length = l.length :=
  List.length_set

theorem get_clear (i j : ℕ) (l : List (Option α)) :
    get (clear i l) j = if i = j then none else get l j := by
  simp only [get, clear, List.getElem?_set]
  by_cases h : i = j
  · subst h
    by_cases hlt : i < l.length <;> simp [hlt]
  · simp [h]

/-! ## Comparing two tables -/

/-- The tables have the same slots filled, and the items of each slot are
related. -/
def Related (R : ℕ → α → α → Prop) (l l' : List (Option α)) : Prop :=
  ∀ i, Option.Rel (R i) (get l i) (get l' i)

variable {R : ℕ → α → α → Prop}

theorem Related.of_get (h : Related R l l') (ha : get l i = some a) :
    ∃ b, get l' i = some b ∧ R i a b := by
  have hi := h i
  rw [ha] at hi
  cases hb : get l' i with
  | none =>
    rw [hb] at hi
    cases hi
  | some b =>
    rw [hb] at hi
    cases hi with
    | some hab => exact ⟨b, rfl, hab⟩

theorem Related.of_get' (h : Related R l l') {b : α} (hb : get l' i = some b) :
    ∃ a, get l i = some a ∧ R i a b := by
  have hi := h i
  rw [hb] at hi
  cases ha : get l i with
  | none =>
    rw [ha] at hi
    cases hi
  | some a =>
    rw [ha] at hi
    cases hi with
    | some hab => exact ⟨a, rfl, hab⟩

theorem Related.refl (hR : ∀ i a, R i a a) : Related R l l := by
  intro i
  cases get l i with
  | none => exact .none
  | some a => exact .some (hR i a)

variable {f : α → α}

theorem Related.of_update (hR : ∀ i a, R i a a) (h : ∀ i, get l' i = get l i ∨
      get l' i = (get l i).map f ∧ ∀ a, get l i = some a → R i a (f a)) : Related R l l' := by
  intro i
  rcases h i with hi | ⟨hi, hf⟩
  · rw [hi]
    exact Related.refl (l := l) hR i
  · rw [hi]
    cases ha : get l i with
    | none => exact .none
    | some a => exact .some (hf a ha)

theorem related_map (hf : ∀ i a, R i a (f a)) : Related R l (map f l) := by
  intro i
  rw [get_map]
  cases get l i with
  | none => exact .none
  | some a => exact .some (hf i a)

theorem related_modify {j : ℕ} (hR : ∀ i a, R i a a) (hf : ∀ a, get l j = some a → R j a (f a)) :
    Related R l (modify j f l) := by
  refine Related.of_update (f := f) hR fun i => ?_
  rw [get_modify]
  by_cases hi : j = i
  · subst hi
    exact Or.inr ⟨by simp, hf⟩
  · exact Or.inl (by simp [hi])

theorem related_modifyFirst (hR : ∀ i a, R i a a) (hf : ∀ i a, find p l = some i → R i a (f a)) :
    Related R l (modifyFirst p f l) := by
  refine Related.of_update (f := f) hR fun i => ?_
  rw [get_modifyFirst]
  split
  · rename_i hfirst
    exact Or.inr ⟨rfl, fun a _ => hf i a hfirst⟩
  · exact Or.inl rfl

theorem Related.mono {S : ℕ → α → α → Prop} (h : Related R l l')
    (hS : ∀ i a b, R i a b → S i a b) : Related S l l' := by
  intro i
  have hi := h i
  generalize get l i = a at hi
  generalize get l' i = b at hi
  cases hi with
  | some hab => exact .some (hS i _ _ hab)
  | none => exact .none

theorem Related.trans {S T : ℕ → α → α → Prop} {l'' : List (Option α)} (h : Related R l l')
    (h' : Related S l' l'') (hT : ∀ i a b c, R i a b → S i b c → T i a c) : Related T l l'' := by
  intro i
  have hi := h i
  have hi' := h' i
  generalize get l i = a at hi
  generalize get l' i = b at hi hi'
  generalize get l'' i = c at hi'
  cases hi with
  | none =>
    cases hi'
    exact .none
  | some hab =>
    cases hi' with
    | some hbc => exact .some (hT i _ _ _ hab hbc)

end Slots
