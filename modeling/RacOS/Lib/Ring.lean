import Mathlib.Data.List.Basic
import Mathlib.Data.Nat.ModEq
import Mathlib.Algebra.GroupWithZero.Nat

/-!
# Ring buffers

A queue stored in the cells of a list, between a read and a write position that wrap around at its
end.  Items are written one by one at the write position and read one by one at the read position.
As long as no more items are stored than there are cells, this is a first-in first-out queue.
-/

namespace Ring

variable {α : Type}

/-- Write items one after the other, from a position on; the next position is returned. -/
def write : List α → List α → ℕ → List α × ℕ
  | [], cells, pos => (cells, pos)
  | a :: items, cells, pos => write items (cells.set pos a) ((pos + 1) % cells.length)

/-- Read `n` items one after the other, from a position on; the next position is returned. -/
def read (cells : List α) : ℕ → ℕ → List α × ℕ
  | 0, pos => ([], pos)
  | n + 1, pos =>
    let rest := read cells n ((pos + 1) % cells.length)
    (cells[pos]?.toList ++ rest.1, rest.2)

/-- The `n` items that are stored from a position on. -/
def contents (cells : List α) (pos n : ℕ) : List α :=
  (List.range n).filterMap fun i => cells[(pos + i) % cells.length]?

/-- The items between the two positions are those of the queue, in order. -/
structure Holds (cells : List α) (readPos writePos : ℕ) (queue : List α) : Prop where
  fits : queue.length ≤ cells.length
  inside : readPos < cells.length
  next : writePos = (readPos + queue.length) % cells.length
  item : ∀ i a, queue[i]? = some a → cells[(readPos + i) % cells.length]? = some a

variable {cells : List α}

theorem holds_nil {pos : ℕ} (h : pos < cells.length) : Holds cells pos pos [] where
  fits := Nat.zero_le _
  inside := h
  next := (Nat.mod_eq_of_lt h).symm
  item := by simp

/-- Two positions less than a round apart are different cells. -/
theorem mod_ne_of_lt {pos i n cap : ℕ} (hi : i < n) (hn : n < cap) :
    (pos + n) % cap ≠ (pos + i) % cap := by
  intro h
  have hmod : n % cap = i % cap := Nat.ModEq.add_left_cancel' pos h
  rw [Nat.mod_eq_of_lt hn, Nat.mod_eq_of_lt (hi.trans hn)] at hmod
  omega

variable {queue : List α} {readPos writePos : ℕ}

/-- An item written behind the queue becomes its last one. -/
theorem Holds.push (h : Holds cells readPos writePos queue) (hroom : queue.length < cells.length)
    (a : α) :
    Holds (cells.set writePos a) readPos ((writePos + 1) % cells.length) (queue ++ [a]) where
  fits := by
    rw [List.length_append, List.length_singleton, List.length_set]
    exact hroom
  inside := by simpa using h.inside
  next := by
    rw [h.next, List.length_set, List.length_append, List.length_singleton, Nat.mod_add_mod,
      Nat.add_assoc]
  item := by
    intro i b hb
    rw [List.length_set, h.next]
    by_cases hi : i < queue.length
    · rw [List.getElem?_append_left hi] at hb
      rw [List.getElem?_set_ne (mod_ne_of_lt hi hroom)]
      exact h.item i b hb
    · have hlast : i = queue.length := by
        have := (List.getElem?_eq_some_iff.mp hb).1
        rw [List.length_append, List.length_singleton] at this
        omega
      subst hlast
      rw [List.getElem?_append_right le_rfl, Nat.sub_self] at hb
      have hpos : (readPos + queue.length) % cells.length < cells.length :=
        Nat.mod_lt _ (Nat.zero_lt_of_lt h.inside)
      rw [List.getElem?_set_self hpos]
      simpa using hb

/-- The item at the read position is the first of the queue. -/
theorem Holds.pop {a : α} (h : Holds cells readPos writePos (a :: queue)) :
    cells[readPos]? = some a ∧ Holds cells ((readPos + 1) % cells.length) writePos queue := by
  have hpos : 0 < cells.length := Nat.zero_lt_of_lt h.inside
  constructor
  · have hfirst := h.item 0 a rfl
    rwa [Nat.add_zero, Nat.mod_eq_of_lt h.inside] at hfirst
  · refine ⟨?_, Nat.mod_lt _ hpos, ?_, ?_⟩
    · exact (Nat.le_succ _).trans h.fits
    · rw [h.next, List.length_cons, Nat.mod_add_mod, Nat.add_assoc, Nat.add_comm 1]
    · intro i b hb
      rw [Nat.mod_add_mod, Nat.add_assoc, Nat.add_comm 1]
      exact h.item (i + 1) b hb

theorem length_write (items : List α) (cells : List α) (pos : ℕ) :
    (write items cells pos).1.length = cells.length := by
  induction items generalizing cells pos with
  | nil => rfl
  | cons a items ih => rw [write, ih, List.length_set]

/-- Items for which there is room are appended to the queue. -/
theorem Holds.write (h : Holds cells readPos writePos queue) (items : List α)
    (hroom : queue.length + items.length ≤ cells.length) :
    Holds (write items cells writePos).1 readPos (write items cells writePos).2
      (queue ++ items) := by
  induction items generalizing cells queue writePos with
  | nil => simpa [Ring.write] using h
  | cons a items ih =>
    rw [List.length_cons] at hroom
    have hstep := ih (h.push (by omega) a)
      (by rw [List.length_append, List.length_singleton, List.length_set]; omega)
    rw [List.append_assoc, List.singleton_append] at hstep
    exact hstep

/-- Reading takes items from the front of the queue. -/
theorem Holds.read (h : Holds cells readPos writePos queue) (n : ℕ) (hn : n ≤ queue.length) :
    (read cells n readPos).1 = queue.take n ∧
      Holds cells (read cells n readPos).2 writePos (queue.drop n) := by
  induction n generalizing readPos queue with
  | zero => exact ⟨rfl, h⟩
  | succ n ih =>
    cases queue with
    | nil => simp at hn
    | cons a queue =>
      obtain ⟨hfirst, hrest⟩ := h.pop
      obtain ⟨hread, hholds⟩ := ih hrest (Nat.le_of_succ_le_succ hn)
      refine ⟨?_, hholds⟩
      rw [Ring.read, hfirst, hread]
      rfl

/-- The items stored are those of the queue. -/
theorem Holds.contents_eq (h : Holds cells readPos writePos queue) :
    contents cells readPos queue.length = queue := by
  have hitems : ∀ i ∈ List.range queue.length,
      cells[(readPos + i) % cells.length]? = queue[i]? := by
    intro i hi
    have hi := List.mem_range.mp hi
    rw [h.item i queue[i] (List.getElem?_eq_getElem hi), List.getElem?_eq_getElem hi]
  rw [contents, List.filterMap_congr hitems]
  apply List.ext_getElem?
  intro i
  clear hitems h
  induction queue generalizing i with
  | nil => rfl
  | cons a queue ih =>
    rw [List.length_cons, List.range_succ_eq_map, List.filterMap_cons, List.filterMap_map]
    cases i with
    | zero => rfl
    | succ i => exact ih i

/-- What did not fit into a queue of bounded length is lost, whatever is added later. -/
theorem take_take_append (n : ℕ) (queue items : List α) :
    (queue.take n ++ items).take n = (queue ++ items).take n := by
  rw [List.take_append, List.take_append, List.take_take, Nat.min_self, List.length_take]
  congr 2
  omega

end Ring
