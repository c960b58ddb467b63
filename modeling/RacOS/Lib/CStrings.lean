import RacOS.Lib.Bytes
import Mathlib.Data.List.Basic

/-!
# Strings that end with NUL

Lists of bytes in a byte buffer.  Strings are laid out one after the other, each with a
NUL after it; the addresses of the strings and the areas they take are given by their
lengths.  The bytes of a text are its UTF-8 encoding.
-/

variable {b : Bytes}

namespace Bytes

/-- Write a list of bytes from an offset on. -/
def store (b : Bytes) (off : ℕ) (data : List UInt8) : Bytes :=
  b.patch off data.length fun i => data.getD i 0

/-- The bytes from an offset on are those of the list. -/
def Holds (b : Bytes) (off : ℕ) (data : List UInt8) : Prop :=
  ∀ i v, data[i]? = some v → b (off + i) = v

theorem store_of_disjoint {off i : ℕ} {data : List UInt8} (h : i < off ∨ off + data.length ≤ i) :
    b.store off data i = b i :=
  patch_of_disjoint h

theorem store_nil (b : Bytes) (off : ℕ) : b.store off [] = b := by
  funext i
  exact store_of_disjoint (by simp only [List.length_nil]; omega)

theorem holds_store (b : Bytes) (off : ℕ) (data : List UInt8) :
    (b.store off data).Holds off data := by
  intro i v hv
  obtain ⟨hi, -⟩ := List.getElem?_eq_some_iff.mp hv
  rw [store, patch_of_mem (by omega), Nat.add_sub_cancel_left, List.getD_eq_getElem?_getD, hv,
    Option.getD_some]

/-- A list is written like its two parts, the second one first. -/
theorem store_append (b : Bytes) (off : ℕ) (s t : List UInt8) :
    (b.store (off + s.length) t).store off s = b.store off (s ++ t) := by
  funext i
  simp only [store, patch, List.length_append, List.getD_eq_getElem?_getD]
  by_cases hs : off ≤ i ∧ i < off + s.length
  · rw [if_pos hs, if_pos (by omega), List.getElem?_append_left (by omega)]
  · rw [if_neg hs]
    by_cases ht : off + s.length ≤ i ∧ i < off + s.length + t.length
    · rw [if_pos ht, if_pos (by omega), List.getElem?_append_right (by omega)]
      congr 2
      omega
    · rw [if_neg ht, if_neg (by omega)]

theorem Holds.congr {b b' : Bytes} {off off' : ℕ} {data : List UInt8} (h : b.Holds off data)
    (heq : ∀ i < data.length, b' (off' + i) = b (off + i)) : b'.Holds off' data := by
  intro i v hv
  rw [heq i (List.getElem?_eq_some_iff.mp hv).1]
  exact h i v hv

theorem Holds.left {off : ℕ} {s t : List UInt8} (h : b.Holds off (s ++ t)) : b.Holds off s := by
  intro i v hv
  refine h i v ?_
  rwa [List.getElem?_append_left (List.getElem?_eq_some_iff.mp hv).1]

theorem Holds.right {off : ℕ} {s t : List UInt8} (h : b.Holds off (s ++ t)) :
    b.Holds (off + s.length) t := by
  intro i v hv
  rw [Nat.add_assoc]
  refine h (s.length + i) v ?_
  rwa [List.getElem?_append_right (Nat.le_add_right _ _), Nat.add_sub_cancel_left]

theorem writeArray_append {w : ℕ} (b : Bytes) (off : ℕ) (vs us : List ℕ) :
    writeArray w b off (vs ++ us) =
      writeArray w (writeArray w b off vs) (off + w * vs.length) us := by
  induction vs generalizing b off with
  | nil => rfl
  | cons v vs ih =>
    rw [List.cons_append, writeArray, writeArray, ih, List.length_cons, Nat.mul_succ,
      Nat.add_assoc, Nat.add_comm w]

end Bytes

namespace CStrings

/-- A string with its NUL. -/
def terminated (s : List UInt8) : List UInt8 := s ++ [0]

@[simp]
theorem length_terminated (s : List UInt8) : (terminated s).length = s.length + 1 :=
  List.length_append

/-- Strings one after the other. -/
def joined (l : List (List UInt8)) : List UInt8 := l.flatMap terminated

@[simp]
theorem joined_cons (s : List UInt8) (l : List (List UInt8)) :
    joined (s :: l) = terminated s ++ joined l := List.flatMap_cons

/-- Where the strings begin, from an address on. -/
def starts : ℕ → List (List UInt8) → List ℕ
  | _, [] => []
  | p, s :: l => p :: starts (p + (s.length + 1)) l

@[simp]
theorem length_starts (p : ℕ) (l : List (List UInt8)) : (starts p l).length = l.length := by
  induction l generalizing p with
  | nil => rfl
  | cons s l ih => rw [starts, List.length_cons, ih, List.length_cons]

/-- The strings with their addresses. -/
def placed (p : ℕ) (l : List (List UInt8)) : List (ℕ × List UInt8) := (starts p l).zip l

@[simp]
theorem length_placed (p : ℕ) (l : List (List UInt8)) : (placed p l).length = l.length := by
  rw [placed, List.length_zip, length_starts, Nat.min_self]

theorem map_snd_placed (p : ℕ) (l : List (List UInt8)) : (placed p l).map Prod.snd = l :=
  List.map_snd_zip (length_starts p l).ge

variable {l : List (List UInt8)} {x : ℕ × List UInt8}

theorem start_of_placed {p i : ℕ} (h : (placed p l)[i]? = some x) : (starts p l)[i]? = some x.1 :=
  (List.getElem?_zip_eq_some.mp h).1

/-- A string lies between the first address and the end of the last string. -/
theorem bounds_of_placed {p : ℕ} (h : x ∈ placed p l) :
    p ≤ x.1 ∧ x.1 + (x.2.length + 1) ≤ p + (joined l).length := by
  induction l generalizing p with
  | nil => simp [placed, starts] at h
  | cons s l ih =>
    rw [joined_cons, List.length_append, length_terminated]
    rcases List.mem_cons.mp h with rfl | h
    · exact ⟨le_rfl, Nat.add_le_add_left (Nat.le_add_right _ _) p⟩
    · have hrest := ih h
      omega

/-- Each string ends before the later ones begin. -/
theorem pairwise_placed (p : ℕ) (l : List (List UInt8)) :
    (placed p l).Pairwise fun x y => x.1 + (x.2.length + 1) ≤ y.1 := by
  induction l generalizing p with
  | nil => exact .nil
  | cons s l ih => exact .cons (fun y hy => (bounds_of_placed hy).1) (ih _)

/-- A buffer that holds the strings one after the other holds each at its address. -/
theorem holds_of_placed {p : ℕ} (h : b.Holds p (joined l)) (hx : x ∈ placed p l) :
    b.Holds x.1 (terminated x.2) := by
  induction l generalizing p with
  | nil => simp [placed, starts] at hx
  | cons s l ih =>
    rw [joined_cons] at h
    rcases List.mem_cons.mp hx with rfl | hx
    · exact h.left
    · have hrest := h.right
      rw [length_terminated] at hrest
      exact ih hrest hx

/-- The strings that are shorter than a bound take at most that much each. -/
theorem length_joined_le {max : ℕ} (h : ∀ s ∈ l, s.length < max) :
    (joined l).length ≤ l.length * max := by
  induction l with
  | nil => exact Nat.zero_le _
  | cons s l ih =>
    have hs := h s List.mem_cons_self
    have hl := ih fun t ht => h t (List.mem_cons_of_mem _ ht)
    rw [joined_cons, List.length_append, length_terminated, List.length_cons, Nat.succ_mul]
    omega

end CStrings

/-! ## Texts and their bytes -/

namespace Utf8

/-- The bytes of a text. -/
def encode (text : List Char) : List UInt8 := text.flatMap String.utf8EncodeChar

/-- The text whose bytes these are, if there is one. -/
def decode (bytes : List UInt8) : Option (List Char) :=
  bytes.toByteArray.utf8Decode?.map Array.toList

@[simp]
theorem decode_encode (text : List Char) : decode (encode text) = some text := by
  change (List.utf8Encode text).utf8Decode?.map Array.toList = some text
  rw [List.utf8Decode?_utf8Encode]
  simp

theorem decode_eq_some_iff {bytes : List UInt8} {text : List Char} :
    decode bytes = some text ↔ bytes = encode text := by
  constructor
  · intro h
    have hvalid : bytes.toByteArray.IsValidUTF8 := by
      rw [← ByteArray.isSome_utf8Decode?_iff]
      rw [decode] at h
      exact Option.isSome_map.symm.trans (by rw [h]; rfl)
    obtain ⟨m, hm⟩ := hvalid
    have hbytes : bytes = encode m := List.toByteArray_inj.mp hm
    rw [hbytes, decode_encode] at h
    rw [hbytes, Option.some.inj h]
  · rintro rfl
    exact decode_encode text

theorem encode_injective {s t : List Char} (h : encode s = encode t) : s = t := by
  rw [← Option.some_inj, ← decode_encode s, h, decode_encode]

theorem encode_append (s t : List Char) : encode (s ++ t) = encode s ++ encode t :=
  List.flatMap_append

end Utf8
