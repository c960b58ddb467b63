import Mathlib.Algebra.GroupWithZero.Nat
import Mathlib.Algebra.Order.Group.Nat
import Mathlib.Data.List.Basic

/-!
# Sequence numbers modulo `2 ^ 32`

Sequence numbers of a byte stream are 32-bit words that wrap around.  Two
numbers are compared through the distance from one to the other, and a queue
of segments is described by the intervals of sequence numbers it holds: they
lie end to end, so that every number between the ends belongs to exactly one
of them.  Acknowledging a number drops the intervals that end at or before it
and leaves a queue of the same kind.
-/

namespace SeqNum

/-! ## Distances -/

/-- How far one has to count up from `a` to reach `b`. -/
def dist (a b : UInt32) : ℕ := (b - a).toNat

variable {a b c x y : UInt32}

theorem dist_lt (a b : UInt32) : dist a b < 2 ^ 32 := (b - a).toNat_lt

theorem dist_eq (a b : UInt32) : dist a b = (2 ^ 32 - a.toNat + b.toNat) % 2 ^ 32 :=
  UInt32.toNat_sub b a

@[simp] theorem dist_self (a : UInt32) : dist a a = 0 := by
  have ha := a.toNat_lt
  rw [dist_eq]
  omega

theorem dist_eq_zero : dist a b = 0 ↔ a = b := by
  constructor
  · intro h
    have ha := a.toNat_lt
    have hb := b.toNat_lt
    rw [dist_eq] at h
    exact UInt32.toNat_inj.mp (by omega)
  · rintro rfl
    exact dist_self a

@[simp] theorem dist_add (a n : UInt32) : dist a (a + n) = n.toNat := by
  have ha := a.toNat_lt
  have hn := n.toNat_lt
  rw [dist_eq, UInt32.toNat_add]
  omega

/-- Two distances add up, with one turn around the circle at most. -/
theorem dist_trans (a b c : UInt32) :
    dist a b + dist b c = dist a c ∨ dist a b + dist b c = dist a c + 2 ^ 32 := by
  rw [dist_eq, dist_eq, dist_eq]
  have ha := a.toNat_lt
  have hb := b.toNat_lt
  have hc := c.toNat_lt
  omega

/-- Distances add up when their sum makes no full turn. -/
theorem dist_add_dist (h : dist a b + dist b c < 2 ^ 32) : dist a b + dist b c = dist a c := by
  rcases dist_trans a b c with hsum | hsum
  · exact hsum
  · omega

/-- The part of a way that is left behind a point on it. -/
theorem dist_sub (h : dist a b ≤ dist a c) : dist b c = dist a c - dist a b := by
  have := dist_lt b c
  rcases dist_trans a b c with hsum | hsum <;> omega

/-- `a` comes before `b`: counting up from `a` reaches `b` in at most half a
turn. -/
def Before (a b : UInt32) : Prop := 0 < dist a b ∧ dist a b ≤ 2 ^ 31

instance (a b : UInt32) : Decidable (Before a b) :=
  inferInstanceAs (Decidable (_ ∧ _))

/-- A number that comes after `a` and not after `c` lies on the way from `a` to
`c`, unless it is the one number opposite to `a = c`. -/
theorem dist_le_of_between (hac : dist a c ≤ 2 ^ 31) (hab : Before a b) (hbc : dist b c ≤ 2 ^ 31)
    (hopp : ¬(a = c ∧ dist a b = 2 ^ 31)) : dist a b ≤ dist a c := by
  obtain ⟨hpos, hhalf⟩ := hab
  rcases dist_trans a b c with hsum | hsum
  · omega
  · -- A full turn takes two halves, and then `a` and `c` are the same number.
    refine absurd ⟨dist_eq_zero.mp ?_, ?_⟩ hopp <;> omega

/-! ## Queues of intervals -/

section Tiling

variable {α : Type} (seq len : α → UInt32)

/-- The intervals of the segments in `l` lie end to end from `a` to `b`. -/
def Tiles : UInt32 → List α → UInt32 → Prop
  | a, [], b => a = b
  | a, p :: l, b => seq p = a ∧ Tiles (a + len p) l b

/-- The sequence numbers the segments in `l` take up. -/
def total (l : List α) : ℕ := (l.map fun p => (len p).toNat).sum

/-- Sequence number `x` belongs to segment `p`. -/
def covers (x : UInt32) (p : α) : Bool := decide (dist (seq p) x < (len p).toNat)

variable {seq len} {l : List α} {p q : α}

@[simp] theorem total_nil : total len [] = 0 := rfl

@[simp] theorem total_cons (p : α) (l : List α) :
    total len (p :: l) = (len p).toNat + total len l := rfl

@[simp] theorem total_append (l m : List α) : total len (l ++ m) = total len l + total len m := by
  unfold total
  rw [List.map_append, List.sum_append]

theorem Tiles.snoc (h : Tiles seq len a l b) (hp : seq p = b) :
    Tiles seq len a (l ++ [p]) (b + len p) := by
  induction l generalizing a with
  | nil =>
    obtain rfl : a = b := h
    exact ⟨hp, rfl⟩
  | cons q l ih => exact ⟨h.1, ih h.2⟩

/-- The distance between the ends is the number of sequence numbers held. -/
theorem Tiles.dist_eq_total (h : Tiles seq len a l b) (hl : total len l < 2 ^ 32) :
    dist a b = total len l := by
  induction l generalizing a with
  | nil =>
    obtain rfl : a = b := h
    exact dist_self a
  | cons p l ih =>
    rw [total_cons] at hl ⊢
    have htail := ih h.2 (by omega)
    have hhead := dist_add a (len p)
    have hsum : dist a (a + len p) + dist (a + len p) b = dist a b :=
      dist_add_dist (by omega)
    omega

/-- Each sequence number between the ends belongs to exactly one segment, and
no other number belongs to any. -/
theorem Tiles.countP_covers (h : Tiles seq len a l b) (hl : total len l ≤ 2 ^ 32) (x : UInt32) :
    l.countP (covers seq len x) = if dist a x < total len l then 1 else 0 := by
  induction l generalizing a with
  | nil => rfl
  | cons p l ih =>
    rw [total_cons] at hl ⊢
    obtain ⟨rfl, htail⟩ := h
    rw [List.countP_cons, ih htail (by omega)]
    have hlen := dist_add (seq p) (len p)
    have hx := dist_lt (seq p) x
    have hcov : (covers seq len x p = true) ↔ dist (seq p) x < (len p).toNat :=
      decide_eq_true_iff
    by_cases hin : dist (seq p) x < (len p).toNat
    · have hfar : ¬dist (seq p + len p) x < total len l := by
        rcases dist_trans (seq p) (seq p + len p) x with hsum | hsum <;> omega
      rw [if_neg hfar, if_pos (hcov.mpr hin), if_pos (by omega)]
    · have hback : dist (seq p + len p) x = dist (seq p) x - (len p).toNat := by
        rw [dist_sub (hlen.trans_le (not_lt.mp hin)), hlen]
      rw [if_neg (mt hcov.mp hin), hback]
      by_cases hin' : dist (seq p) x < (len p).toNat + total len l
      · rw [if_pos (by omega), if_pos hin']
      · rw [if_neg (by omega), if_neg hin']

/-- Each segment starts where the one before it ends. -/
theorem Tiles.isChain (h : Tiles seq len a l b) : l.IsChain fun p q => seq q = seq p + len p := by
  induction l generalizing a with
  | nil => exact .nil
  | cons p l ih =>
    cases l with
    | nil => exact .singleton p
    | cons q l =>
      refine .cons_cons ?_ (ih h.2)
      rw [h.2.1, h.1]

/-- The last segment ends at the upper end. -/
theorem Tiles.getLast (h : Tiles seq len a l b) (hp : l.getLast? = some p) : seq p + len p = b := by
  induction l generalizing a with
  | nil => exact absurd hp (by simp)
  | cons q l ih =>
    cases l with
    | nil =>
      obtain rfl : q = p := by simpa using hp
      rw [h.1]
      exact h.2
    | cons r l =>
      rw [List.getLast?_cons_cons] at hp
      exact ih h.2 hp

/-- The start of a segment, counted from the lower end. -/
theorem Tiles.dist_of_mem (h : Tiles seq len a l b) (hl : total len l < 2 ^ 32)
    (hp : p ∈ l) : dist a (seq p) + (len p).toNat ≤ total len l := by
  induction l generalizing a with
  | nil => exact absurd hp List.not_mem_nil
  | cons q l ih =>
    rw [total_cons] at hl ⊢
    rcases List.mem_cons.mp hp with rfl | hp
    · rw [h.1, dist_self]
      omega
    · have hrest := ih h.2 (by omega) hp
      have hq := dist_add a (len q)
      have hsum : dist a (a + len q) + dist (a + len q) (seq p) = dist a (seq p) :=
        dist_add_dist (by omega)
      omega

/-- Segments stand in the order of their sequence numbers. -/
theorem Tiles.pairwise (h : Tiles seq len a l b) (hl : total len l ≤ 2 ^ 31)
    (hpos : ∀ p ∈ l, 0 < (len p).toNat) : l.Pairwise fun p q => Before (seq p) (seq q) := by
  induction l generalizing a with
  | nil => exact .nil
  | cons p l ih =>
    rw [total_cons] at hl
    obtain ⟨rfl, htail⟩ := h
    have hp := hpos p List.mem_cons_self
    refine .cons (fun q hq => ?_)
      (ih htail (by omega) fun q hq => hpos q (List.mem_cons_of_mem p hq))
    have hfar := htail.dist_of_mem (by omega) hq
    have hlen := dist_add (seq p) (len p)
    have hsum : dist (seq p) (seq p + len p) + dist (seq p + len p) (seq q) =
        dist (seq p) (seq q) := dist_add_dist (by omega)
    have hq := hpos q (List.mem_cons_of_mem p hq)
    constructor <;> omega

variable (seq len)

/-- The segments in `l` hold every sequence number from `una` up to `nxt`: they
lie end to end up to `nxt`, and `una` lies in the first of them. -/
structure Queued (una : UInt32) (l : List α) (nxt : UInt32) : Prop where
  tiles : ∃ a, Tiles seq len a l nxt
  size : total len l ≤ 2 ^ 31
  pos : ∀ p ∈ l, 0 < (len p).toNat
  empty : l = [] → una = nxt
  first : ∀ p, l.head? = some p → covers seq len una p = true

variable {seq len} {una nxt ack : UInt32}

theorem Queued.nil (nxt : UInt32) : Queued seq len nxt [] nxt where
  tiles := ⟨nxt, rfl⟩
  size := by simp
  pos := by simp
  empty := fun _ => rfl
  first := by simp

/-- The lower end of the queue, the first unacknowledged number on it and the
distance left to the upper end. -/
theorem Queued.lower (h : Queued seq len una l nxt) :
    ∃ a, Tiles seq len a l nxt ∧ dist a una + dist una nxt = total len l := by
  obtain ⟨a, htiles⟩ := h.tiles
  have hsize := h.size
  have hall := htiles.dist_eq_total (by omega)
  refine ⟨a, htiles, ?_⟩
  cases l with
  | nil =>
    obtain rfl : a = nxt := htiles
    rw [h.empty rfl]
    simp
  | cons p l =>
    have hfirst : dist (seq p) una < (len p).toNat :=
      of_decide_eq_true (h.first p rfl)
    rw [htiles.1] at hfirst
    rw [total_cons] at hall ⊢
    have := dist_sub (show dist a una ≤ dist a nxt by omega)
    omega

theorem Queued.dist_le (h : Queued seq len una l nxt) : dist una nxt ≤ 2 ^ 31 := by
  obtain ⟨a, -, hsum⟩ := h.lower
  have := h.size
  omega

/-- Every unacknowledged sequence number belongs to exactly one segment. -/
theorem Queued.countP_covers (h : Queued seq len una l nxt)
    (hx : dist una x < dist una nxt) : l.countP (covers seq len x) = 1 := by
  obtain ⟨a, htiles, hsum⟩ := h.lower
  have hsize := h.size
  have hax : dist a una + dist una x = dist a x := dist_add_dist (by omega)
  rw [htiles.countP_covers (by omega), if_pos (by omega)]

/-- A segment that starts at the upper end is put behind the others. -/
theorem Queued.push (h : Queued seq len una l nxt) (hseq : seq p = nxt)
    (hpos : 0 < (len p).toNat) (hsize : total len l + (len p).toNat ≤ 2 ^ 31) :
    Queued seq len una (l ++ [p]) (nxt + len p) := by
  obtain ⟨a, htiles⟩ := h.tiles
  constructor
  case tiles => exact ⟨a, htiles.snoc hseq⟩
  case size => simpa using hsize
  case pos =>
    intro q hq
    rcases List.mem_append.mp hq with hq | hq
    · exact h.pos q hq
    · rwa [List.mem_singleton.mp hq]
  case empty => simp
  case first =>
    intro q hq
    cases l with
    | nil =>
      obtain rfl : p = q := by simpa using hq
      refine decide_eq_true ?_
      rw [h.empty rfl, hseq, dist_self]
      exact hpos
    | cons r l => exact h.first q (by simpa using hq)

/-- Intervals that lie end to end beyond `ack` all stay. -/
theorem Tiles.filter_eq_self (h : Tiles seq len a l b)
    (hpos : ∀ p ∈ l, 0 < (len p).toNat) (hack : dist ack a + total len l ≤ 2 ^ 31) :
    (l.filter fun p => decide (Before ack (seq p + len p))) = l := by
  refine List.filter_eq_self.mpr fun p hp => decide_eq_true ?_
  have hin := h.dist_of_mem (by omega) hp
  have hp := hpos p hp
  have hlen := dist_add (seq p) (len p)
  have hstart : dist ack a + dist a (seq p) = dist ack (seq p) :=
    dist_add_dist (by omega)
  have hend : dist ack (seq p) + dist (seq p) (seq p + len p) =
      dist ack (seq p + len p) := dist_add_dist (by omega)
  constructor <;> omega

/-- Acknowledging `ack` drops the intervals that end at or before it. -/
theorem Tiles.retain (h : Tiles seq len a l nxt) (hsize : total len l ≤ 2 ^ 31)
    (hpos : ∀ p ∈ l, 0 < (len p).toNat) (hack : dist a ack + dist ack nxt = total len l) :
    Queued seq len ack
      (l.filter fun p => decide (Before ack (seq p + len p))) nxt := by
  induction l generalizing a with
  | nil =>
    obtain rfl : a = nxt := h
    rw [total_nil] at hack
    obtain rfl : a = ack := dist_eq_zero.mp (by omega)
    exact .nil a
  | cons p l ih =>
    rw [total_cons] at hsize hack
    have hpp := hpos p List.mem_cons_self
    have hlen := dist_add (seq p) (len p)
    obtain ⟨rfl, htail⟩ := h
    have htail_pos : ∀ q ∈ l, 0 < (len q).toNat :=
      fun q hq => hpos q (List.mem_cons_of_mem p hq)
    have hrest := htail.dist_eq_total (by omega)
    by_cases hin : dist (seq p) ack < (len p).toNat
    · -- The acknowledged number lies in this interval, which stays.
      have hleft : dist ack (seq p + len p) =
          dist (seq p) (seq p + len p) - dist (seq p) ack := dist_sub (by omega)
      have hkeep : Before ack (seq p + len p) := by
        constructor <;> omega
      rw [List.filter_cons, if_pos (decide_eq_true hkeep),
        htail.filter_eq_self htail_pos (by omega)]
      constructor
      case tiles => exact ⟨seq p, rfl, htail⟩
      case size => rw [total_cons]; omega
      case pos => exact hpos
      case empty => simp
      case first =>
        intro q hq
        obtain rfl : p = q := by simpa using hq
        exact decide_eq_true hin
    · -- The interval ends at or before the acknowledged number.
      have hback : dist (seq p + len p) ack = dist (seq p) ack - (len p).toNat := by
        rw [dist_sub (hlen.trans_le (not_lt.mp hin)), hlen]
      have hdrop : ¬Before ack (seq p + len p) := by
        rintro ⟨hgt, hle⟩
        rcases dist_trans (seq p + len p) ack (seq p + len p) with hsum | hsum
        · rw [dist_self] at hsum
          omega
        · rw [dist_self] at hsum
          omega
      rw [List.filter_cons, if_neg (by simpa using hdrop)]
      exact ih htail (by omega) htail_pos (by omega)

/-- Acknowledging a number on the way from `una` to `nxt` leaves the queue of
the numbers from there on. -/
theorem Queued.retain (h : Queued seq len una l nxt) (hack : dist una ack ≤ dist una nxt) :
    Queued seq len ack
      (l.filter fun p => decide (Before ack (seq p + len p))) nxt := by
  obtain ⟨a, htiles, hsum⟩ := h.lower
  have hsize := h.size
  have hreach : dist a una + dist una ack = dist a ack := dist_add_dist (by omega)
  have hrest := dist_sub hack
  exact htiles.retain hsize h.pos (by omega)

theorem Tiles.map {f : α → α} (hseq : ∀ p, seq (f p) = seq p) (hlen : ∀ p, len (f p) = len p)
    (h : Tiles seq len a l b) : Tiles seq len a (l.map f) b := by
  induction l generalizing a with
  | nil => exact h
  | cons p l ih =>
    refine ⟨(hseq p).trans h.1, ?_⟩
    rw [hlen]
    exact ih h.2

theorem total_map {f : α → α} (hlen : ∀ p, len (f p) = len p) (l : List α) :
    total len (l.map f) = total len l := by
  unfold total
  rw [List.map_map]
  exact congrArg List.sum (List.map_congr_left fun p _ => congrArg _ (hlen p))

/-- A queue is the same queue when its segments keep their intervals. -/
theorem Queued.map {f : α → α} (hseq : ∀ p, seq (f p) = seq p) (hlen : ∀ p, len (f p) = len p)
    (h : Queued seq len una l nxt) : Queued seq len una (l.map f) nxt := by
  obtain ⟨a, htiles⟩ := h.tiles
  constructor
  case tiles => exact ⟨a, htiles.map hseq hlen⟩
  case size => rw [total_map hlen]; exact h.size
  case pos =>
    intro p hp
    obtain ⟨q, hq, rfl⟩ := List.mem_map.mp hp
    rw [hlen]
    exact h.pos q hq
  case empty => exact fun hnil => h.empty (List.map_eq_nil_iff.mp hnil)
  case first =>
    intro p hp
    rw [List.head?_map] at hp
    obtain ⟨q, hq, rfl⟩ := Option.map_eq_some_iff.mp hp
    have hfirst := h.first q hq
    unfold covers at hfirst ⊢
    rwa [hseq, hlen]

end Tiling

end SeqNum
