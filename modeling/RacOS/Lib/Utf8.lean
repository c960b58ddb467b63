import Mathlib.Algebra.GroupWithZero.Nat
import Mathlib.Data.List.Infix
import Mathlib.Data.Nat.Notation

/-!
# UTF-8

The encoding of a character of two to four bytes is a lead byte, which announces the length and
has the first bits, and continuation bytes with six bits each.  What follows are the facts that a
decoder rests on: the bytes of an encoding give back the character, and bytes whose number is a
character that needs as many of them are its encoding.

A decoder that goes on after an error replaces what is ill-formed: `Decodes` says that characters
are a reading of a byte string.
-/

variable {b x : UInt8} {s rest : List UInt8}

namespace Utf8

/-- How many bytes a lead byte announces; zero if it is none. -/
def announced (b : UInt8) : ℕ :=
  if 0xC2 ≤ b ∧ b ≤ 0xDF then 2
  else if 0xE0 ≤ b ∧ b ≤ 0xEF then 3
  else if 0xF0 ≤ b ∧ b ≤ 0xF4 then 4
  else 0

/-- The bits of the character in a lead byte. -/
def leadBits (b : UInt8) : ℕ :=
  if b ≤ 0xDF then b.toNat - 0xC0 else if b ≤ 0xEF then b.toNat - 0xE0 else b.toNat - 0xF0

def IsContinuation (b : UInt8) : Prop := 0x80 ≤ b ∧ b ≤ 0xBF

instance (b : UInt8) : Decidable (IsContinuation b) := inferInstanceAs (Decidable (_ ∧ _))

/-- The six bits of a continuation byte, after the bits before them. -/
def push (bits : ℕ) (b : UInt8) : ℕ := bits * 64 + (b.toNat - 0x80)

/-- The number that continuation bytes make of the bits before them. -/
def value (bits : ℕ) (bytes : List UInt8) : ℕ := bytes.foldl push bits

theorem value_one (bits : ℕ) (x : UInt8) : value bits [x] = bits * 64 + (x.toNat - 0x80) := rfl

theorem value_two (bits : ℕ) (x y : UInt8) :
    value bits [x, y] = (bits * 64 + (x.toNat - 0x80)) * 64 + (y.toNat - 0x80) :=
  rfl

theorem value_three (bits : ℕ) (x y z : UInt8) :
    value bits [x, y, z] =
      ((bits * 64 + (x.toNat - 0x80)) * 64 + (y.toNat - 0x80)) * 64 + (z.toNat - 0x80) :=
  rfl

theorem value_append (bits : ℕ) (bytes : List UInt8) (b : UInt8) :
    value bits (bytes ++ [b]) = push (value bits bytes) b :=
  List.foldl_append

/-- The least number that needs an encoding of some length. -/
def least (n : ℕ) : ℕ := if n = 3 then 0x800 else if n = 4 then 0x10000 else 0

/-- A lead byte and continuation bytes. -/
structure Sequence (b : UInt8) (rest : List UInt8) : Prop where
  lead : announced b ≠ 0
  rest : ∀ x ∈ rest, IsContinuation x

/-! ## The encoding -/

theorem announced_cases (h : announced b ≠ 0) :
    (announced b = 2 ∧ 0xC2 ≤ b.toNat ∧ leadBits b = b.toNat - 0xC0 ∧ b.toNat ≤ 0xDF) ∨
    (announced b = 3 ∧ 0xE0 ≤ b.toNat ∧ leadBits b = b.toNat - 0xE0 ∧ b.toNat ≤ 0xEF) ∨
    (announced b = 4 ∧ 0xF0 ≤ b.toNat ∧ leadBits b = b.toNat - 0xF0 ∧ b.toNat ≤ 0xF4) := by
  unfold announced at h ⊢
  unfold leadBits
  simp only [UInt8.le_iff_toNat_le, UInt8.reduceToNat] at h ⊢
  split_ifs at h ⊢ <;> omega

theorem announced_of_range : (0xC2 ≤ b.toNat ∧ b.toNat ≤ 0xDF → announced b = 2) ∧
    (0xE0 ≤ b.toNat ∧ b.toNat ≤ 0xEF → announced b = 3) ∧
    (0xF0 ≤ b.toNat ∧ b.toNat ≤ 0xF4 → announced b = 4) := by
  unfold announced
  simp only [UInt8.le_iff_toNat_le, UInt8.reduceToNat]
  refine ⟨fun h => ?_, fun h => ?_, fun h => ?_⟩ <;> split_ifs <;> omega

theorem IsContinuation.range (h : IsContinuation b) : 0x80 ≤ b.toNat ∧ b.toNat ≤ 0xBF := by
  simpa only [IsContinuation, UInt8.le_iff_toNat_le, UInt8.reduceToNat] using h

theorem isContinuation_of_range (h : 0x80 ≤ b.toNat ∧ b.toNat ≤ 0xBF) : IsContinuation b := by
  simpa only [IsContinuation, UInt8.le_iff_toNat_le, UInt8.reduceToNat] using h

theorem ofNat_eq {n : ℕ} (h : n = b.toNat) : UInt8.ofNat n = b := by
  rw [h, UInt8.ofNat_toNat]

/-- The bytes for a number. -/
def bytesOf (v : ℕ) : List UInt8 :=
  if v ≤ 0x7F then [UInt8.ofNat v]
  else if v ≤ 0x7FF then [UInt8.ofNat (v / 64 % 0x20 + 0xC0), UInt8.ofNat (v % 0x40 + 0x80)]
  else if v ≤ 0xFFFF then
    [UInt8.ofNat (v / 4096 % 0x10 + 0xE0), UInt8.ofNat (v / 64 % 0x40 + 0x80),
      UInt8.ofNat (v % 0x40 + 0x80)]
  else
    [UInt8.ofNat (v / 262144 % 0x08 + 0xF0), UInt8.ofNat (v / 4096 % 0x40 + 0x80),
      UInt8.ofNat (v / 64 % 0x40 + 0x80), UInt8.ofNat (v % 0x40 + 0x80)]

theorem utf8EncodeChar_eq (c : Char) : String.utf8EncodeChar c = bytesOf c.toNat := rfl

theorem toNat_charOfNat {n : ℕ} (h : n.isValidChar) : (Char.ofNat n).toNat = n := by
  unfold Char.ofNat
  rw [dif_pos h]
  rfl

theorem encode_ascii (hx : x.toNat < 0x80) :
    String.utf8EncodeChar (Char.ofNat x.toNat) = [x] := by
  have hcode : (Char.ofNat x.toNat).toNat = x.toNat := toNat_charOfNat (.inl (by omega))
  rw [utf8EncodeChar_eq, hcode, bytesOf, if_pos (by omega), UInt8.ofNat_toNat]

/-- A sequence of the announced length encodes its number, if that needs as many bytes. -/
theorem bytesOf_value (h : Sequence b rest)
    (hlength : rest.length + 1 = announced b)
    (hleast : least (announced b) ≤ value (leadBits b) rest) :
    bytesOf (value (leadBits b) rest) = b :: rest := by
  have hcont : ∀ x ∈ rest, 0x80 ≤ x.toNat ∧ x.toNat ≤ 0xBF := fun x hx => (h.rest x hx).range
  obtain ⟨v, hv⟩ : ∃ v, value (leadBits b) rest = v := ⟨_, rfl⟩
  rw [hv] at hleast ⊢
  unfold bytesOf
  obtain ⟨hn, hlo, hbits, hhi⟩ | ⟨hn, hlo, hbits, hhi⟩ | ⟨hn, hlo, hbits, hhi⟩ :=
    announced_cases h.lead
  all_goals rw [hn] at hlength hleast
  · obtain ⟨x, hrest⟩ := List.length_eq_one_iff.mp (Nat.succ.inj hlength)
    subst hrest
    have hx := hcont x (by simp)
    rw [value_one, hbits] at hv
    have hb : UInt8.ofNat (v / 64 % 0x20 + 0xC0) = b := ofNat_eq (by omega)
    have hx' : UInt8.ofNat (v % 0x40 + 0x80) = x := ofNat_eq (by omega)
    rw [if_neg (by omega), if_pos (by omega), hb, hx']
  · obtain ⟨x, y, hrest⟩ := List.length_eq_two.mp (Nat.succ.inj hlength)
    subst hrest
    have hx := hcont x (by simp)
    have hy := hcont y (by simp)
    rw [value_two, hbits] at hv
    have hleast' : 0x800 ≤ v := hleast
    have hb : UInt8.ofNat (v / 4096 % 0x10 + 0xE0) = b := ofNat_eq (by omega)
    have hx' : UInt8.ofNat (v / 64 % 0x40 + 0x80) = x := ofNat_eq (by omega)
    have hy' : UInt8.ofNat (v % 0x40 + 0x80) = y := ofNat_eq (by omega)
    rw [if_neg (by omega), if_neg (by omega), if_pos (by omega), hb, hx', hy']
  · obtain ⟨x, y, z, hrest⟩ := List.length_eq_three.mp (Nat.succ.inj hlength)
    subst hrest
    have hx := hcont x (by simp)
    have hy := hcont y (by simp)
    have hz := hcont z (by simp)
    rw [value_three, hbits] at hv
    have hleast' : 0x10000 ≤ v := hleast
    have hb : UInt8.ofNat (v / 262144 % 0x08 + 0xF0) = b := ofNat_eq (by omega)
    have hx' : UInt8.ofNat (v / 4096 % 0x40 + 0x80) = x := ofNat_eq (by omega)
    have hy' : UInt8.ofNat (v / 64 % 0x40 + 0x80) = y := ofNat_eq (by omega)
    have hz' : UInt8.ofNat (v % 0x40 + 0x80) = z := ofNat_eq (by omega)
    rw [if_neg (by omega), if_neg (by omega), if_neg (by omega), hb, hx', hy', hz']

theorem toNat_ofNat {n : ℕ} (h : n < 0x100) : (UInt8.ofNat n).toNat = n := by
  rw [UInt8.toNat_ofNat']
  exact Nat.mod_eq_of_lt h

theorem lead_ofNat (k : ℕ) :
    (2 ≤ k → k < 0x20 → announced (UInt8.ofNat (k + 0xC0)) = 2 ∧
      leadBits (UInt8.ofNat (k + 0xC0)) = k) ∧
    (k < 0x10 → announced (UInt8.ofNat (k + 0xE0)) = 3 ∧ leadBits (UInt8.ofNat (k + 0xE0)) = k) ∧
    (k < 5 → announced (UInt8.ofNat (k + 0xF0)) = 4 ∧ leadBits (UInt8.ofNat (k + 0xF0)) = k) := by
  unfold announced leadBits
  simp only [UInt8.le_iff_toNat_le, UInt8.reduceToNat]
  refine ⟨fun hlo hhi => ?_, fun hhi => ?_, fun hhi => ?_⟩
  all_goals
    rw [toNat_ofNat (by omega)]
    split_ifs <;> omega

/-- The bytes for a number above `0x7F` are a sequence that gives it back. -/
theorem bytesOf_sequence {v : ℕ} (h : 0x7F < v) (hmax : v ≤ 0x10FFFF) :
    ∃ b rest, bytesOf v = b :: rest ∧ Sequence b rest ∧ rest.length + 1 = announced b ∧
      value (leadBits b) rest = v ∧ least (announced b) ≤ v := by
  have hnum : ∀ n, (UInt8.ofNat (n % 0x40 + 0x80)).toNat - 0x80 = n % 0x40 := fun n => by
    rw [toNat_ofNat (by omega), Nat.add_sub_cancel]
  have hcont : ∀ n, IsContinuation (UInt8.ofNat (n % 0x40 + 0x80)) := fun n =>
    isContinuation_of_range (by rw [toNat_ofNat (by omega)]; omega)
  unfold bytesOf
  rw [if_neg (by omega)]
  split_ifs with h₂ h₃
  · obtain ⟨hn, hbits⟩ := (lead_ofNat (v / 64 % 0x20)).1 (by omega) (by omega)
    refine ⟨_, _, rfl, ⟨by omega, by simpa using hcont v⟩, hn.symm, ?_, ?_⟩
    · rw [value_one, hbits, hnum]
      omega
    · rw [hn]
      exact Nat.zero_le v
  · obtain ⟨hn, hbits⟩ := (lead_ofNat (v / 4096 % 0x10)).2.1 (by omega)
    refine ⟨_, _, rfl, ⟨by omega, ?_⟩, hn.symm, ?_, ?_⟩
    · simp only [List.forall_mem_cons, List.not_mem_nil, false_imp_iff, implies_true, and_true]
      exact ⟨hcont (v / 64), hcont v⟩
    · rw [value_two, hbits, hnum, hnum]
      omega
    · rw [hn]
      exact Nat.lt_of_not_le h₂
  · obtain ⟨hn, hbits⟩ := (lead_ofNat (v / 262144 % 0x08)).2.2 (by omega)
    refine ⟨_, _, rfl, ⟨by omega, ?_⟩, hn.symm, ?_, ?_⟩
    · simp only [List.forall_mem_cons, List.not_mem_nil, false_imp_iff, implies_true, and_true]
      exact ⟨hcont (v / 4096), hcont (v / 64), hcont v⟩
    · rw [value_three, hbits, hnum, hnum, hnum]
      omega
    · rw [hn]
      exact Nat.lt_of_not_le h₃

/-- Each continuation byte adds six bits. -/
theorem value_lt (bits : ℕ) {bytes : List UInt8} (h : ∀ x ∈ bytes, IsContinuation x) :
    value bits bytes < (bits + 1) * 64 ^ bytes.length := by
  induction bytes generalizing bits with
  | nil =>
    rw [List.length_nil, Nat.pow_zero, Nat.mul_one]
    exact Nat.lt_succ_self bits
  | cons b bytes ih =>
    have hb := (h b List.mem_cons_self).range
    have hpush : push bits b + 1 ≤ (bits + 1) * 64 := by
      unfold push
      omega
    have hrest := ih (push bits b) fun x hx => h x (List.mem_cons_of_mem b hx)
    have hle : (push bits b + 1) * 64 ^ bytes.length ≤ (bits + 1) * 64 * 64 ^ bytes.length :=
      Nat.mul_le_mul_right (64 ^ bytes.length) hpush
    have hvalue : value bits (b :: bytes) = value (push bits b) bytes := List.foldl_cons ..
    rw [hvalue, List.length_cons, Nat.pow_succ', ← Nat.mul_assoc]
    omega

/-! ## Well-formed and ill-formed bytes -/

/-- The bytes start with the encoding of a character. -/
def StartsWell (s : List UInt8) : Prop := ∃ c : Char, String.utf8EncodeChar c <+: s

/-- A lead byte with fewer continuation bytes than it announces. -/
def Incomplete (s : List UInt8) : Prop :=
  ∃ b rest, s = b :: rest ∧ Sequence b rest ∧ rest.length + 1 < announced b

theorem toNat_le (c : Char) : c.toNat ≤ 0x10FFFF := by
  have hvalid := c.valid
  change c.toNat.isValidChar at hvalid
  unfold Nat.isValidChar at hvalid
  omega

/-- What starts with an encoding and is not ASCII starts with a sequence whose number is a
character that needs as many bytes. -/
theorem StartsWell.sequence (h : StartsWell (b :: s)) (hb : 0x80 ≤ b.toNat) :
    ∃ rest c, rest <+: s ∧ Sequence b rest ∧ rest.length + 1 = announced b ∧
      value (leadBits b) rest = Char.toNat c ∧ least (announced b) ≤ c.toNat := by
  obtain ⟨c, hc⟩ := h
  rw [utf8EncodeChar_eq] at hc
  by_cases hascii : c.toNat ≤ 0x7F
  · rw [bytesOf, if_pos hascii, List.cons_prefix_cons] at hc
    have hbyte := toNat_ofNat (show c.toNat < 0x100 by omega)
    rw [hc.1] at hbyte
    omega
  · obtain ⟨b', rest, hencode, hseq, hlength, hvalue, hleast⟩ :=
      bytesOf_sequence (Nat.lt_of_not_le hascii) (toNat_le c)
    rw [hencode, List.cons_prefix_cons] at hc
    obtain ⟨rfl, hle'⟩ := hc
    exact ⟨rest, c, hle', hseq, hlength, hvalue, hleast⟩

/-- No encoding starts with a byte that is no lead byte. -/
theorem not_startsWell_of_announced (s : List UInt8) (hb : 0x80 ≤ b.toNat) (h : announced b = 0) :
    ¬ StartsWell (b :: s) := by
  intro hstarts
  obtain ⟨rest, c, -, hseq, -⟩ := hstarts.sequence hb
  exact hseq.lead h

theorem not_startsWell_of_isContinuation (s : List UInt8) (h : IsContinuation b) :
    ¬ StartsWell (b :: s) := by
  have hrange := h.range
  refine not_startsWell_of_announced s hrange.1 ?_
  unfold announced
  simp only [UInt8.le_iff_toNat_le, UInt8.reduceToNat]
  split_ifs <;> omega

theorem Sequence.le_lead (h : Sequence b rest) : 0x80 ≤ b.toNat := by
  have := announced_cases h.lead
  omega

/-- A sequence that is broken off has fewer bytes than it announces. -/
theorem length_ne_of_broken {rest rest' s : List UInt8} (hlength : rest.length + 1 < announced b)
    (hs : ∀ x ∈ s.head?, ¬ IsContinuation x) (hle : rest' <+: rest ++ s) (h : Sequence b rest') :
    rest'.length + 1 ≠ announced b := by
  intro hlength'
  obtain ⟨u, rfl⟩ := List.prefix_of_prefix_length_le (List.prefix_append rest s) hle (by omega)
  cases u with
  | nil =>
    rw [List.append_nil] at hlength'
    omega
  | cons x u =>
    obtain ⟨s', hs'⟩ := (List.prefix_append_right_inj rest).mp hle
    refine hs x ?_ (h.rest x (by simp))
    simp [← hs']

/-- A sequence that is broken off is not the start of an encoding. -/
theorem not_startsWell_of_broken {rest s : List UInt8} (h : Sequence b rest)
    (hlength : rest.length + 1 < announced b) (hs : ∀ x ∈ s.head?, ¬ IsContinuation x) :
    ¬ StartsWell (b :: (rest ++ s)) := by
  intro hstarts
  obtain ⟨rest', c, hle, hseq, hlength', -⟩ := hstarts.sequence h.le_lead
  exact length_ne_of_broken hlength hs hle hseq hlength'

/-- A sequence of the announced length whose number is no character, or one that needs fewer
bytes, is not the start of an encoding. -/
theorem not_startsWell_of_value (s : List UInt8) (h : Sequence b rest)
    (hlength : rest.length + 1 = announced b)
    (hvalue : ∀ c : Char, value (leadBits b) rest = c.toNat → c.toNat < least (announced b)) :
    ¬ StartsWell (b :: (rest ++ s)) := by
  intro hstarts
  obtain ⟨rest', c, hle, hseq, hlength', hc, hleast⟩ := hstarts.sequence h.le_lead
  obtain rfl : rest' = rest :=
    (List.prefix_of_prefix_length_le hle (List.prefix_append rest s) (by omega)).eq_of_length
      (by omega)
  exact Nat.not_le.mpr (hvalue c hc) hleast

/-- No encoding is the start of another. -/
theorem eq_of_encode_prefix {c d : Char}
    (h : String.utf8EncodeChar c <+: String.utf8EncodeChar d ++ s) : c = d := by
  rw [utf8EncodeChar_eq, utf8EncodeChar_eq] at h
  apply Char.toNat_inj.mp
  have hbyte : ∀ e : Char, e.toNat ≤ 0x7F → (UInt8.ofNat e.toNat).toNat = e.toNat := fun e he =>
    toNat_ofNat (by omega)
  by_cases hc : c.toNat ≤ 0x7F <;> by_cases hd : d.toNat ≤ 0x7F
  · rw [bytesOf, bytesOf, if_pos hc, if_pos hd, List.singleton_append, List.cons_prefix_cons] at h
    rw [← hbyte c hc, ← hbyte d hd, h.1]
  · obtain ⟨b, rest, hencode, hseq, -⟩ := bytesOf_sequence (Nat.lt_of_not_le hd) (toNat_le d)
    rw [bytesOf, if_pos hc, hencode, List.cons_append, List.cons_prefix_cons] at h
    have := hseq.le_lead
    have := hbyte c hc
    rw [h.1] at this
    omega
  · obtain ⟨b, rest, hencode, hseq, -⟩ := bytesOf_sequence (Nat.lt_of_not_le hc) (toNat_le c)
    rw [hencode, bytesOf, if_pos hd, List.singleton_append, List.cons_prefix_cons] at h
    have := hseq.le_lead
    have := hbyte d hd
    rw [← h.1] at this
    omega
  · obtain ⟨b, rest, hencode, -, hlength, hvalue, -⟩ :=
      bytesOf_sequence (Nat.lt_of_not_le hc) (toNat_le c)
    obtain ⟨b', rest', hencode', -, hlength', hvalue', -⟩ :=
      bytesOf_sequence (Nat.lt_of_not_le hd) (toNat_le d)
    rw [hencode, hencode', List.cons_append, List.cons_prefix_cons] at h
    obtain ⟨rfl, hle⟩ := h
    obtain rfl : rest = rest' :=
      (List.prefix_of_prefix_length_le hle (List.prefix_append rest' s) (by omega)).eq_of_length
        (by omega)
    exact hvalue.symm.trans hvalue'

/-! ## Reading bytes with errors -/

/-- A reading of bytes as characters.  The bytes are cut into encodings, which stand for their
characters, and pieces in which no encoding starts, of which each stands for at least one
replacement; a maximal ill-formed part is one or more such pieces.  An incomplete sequence at the
end may stand for nothing. -/
inductive Decodes (replacement : Char) : List UInt8 → List Char → Prop
  | nil : Decodes replacement [] []
  | pending {s : List UInt8} (h : Incomplete s) : Decodes replacement s []
  | char (c : Char) {s : List UInt8} {cs : List Char} (h : Decodes replacement s cs) :
      Decodes replacement (String.utf8EncodeChar c ++ s) (c :: cs)
  | illFormed {p s : List UInt8} {cs : List Char} (n : ℕ) (hp : p ≠ []) (hn : n ≠ 0)
      (hstart : ∀ q, q <:+ p → q ≠ [] → ¬ StartsWell (q ++ s)) (h : Decodes replacement s cs) :
      Decodes replacement (p ++ s) (List.replicate n replacement ++ cs)

/-- A sequence that is no encoding is a piece. -/
theorem Decodes.sequence {replacement : Char} {rest s : List UInt8} {cs : List Char}
    (hrest : ∀ x ∈ rest, IsContinuation x) (hstart : ¬ StartsWell (b :: (rest ++ s)))
    (h : Decodes replacement s cs) :
    Decodes replacement (b :: (rest ++ s)) (replacement :: cs) := by
  refine Decodes.illFormed (p := b :: rest) 1 (by simp) (by simp) (fun q hq hne => ?_) h
  rcases List.suffix_cons_iff.mp hq with rfl | hq
  · exact hstart
  · obtain ⟨x, q, rfl⟩ := List.exists_cons_of_ne_nil hne
    exact not_startsWell_of_isContinuation _ (hrest x (hq.subset List.mem_cons_self))

/-! ## Counting characters -/

section Sites

variable {P Q : List UInt8 → Prop}

open Classical in
/-- At how many places of a byte string something starts. -/
noncomputable def sites (P : List UInt8 → Prop) (s : List UInt8) : ℕ := s.tails.countP (P ·)

theorem sites_nil (h : ¬ P []) : sites P [] = 0 := by
  unfold sites
  simpa using h

theorem sites_cons_of_pos (h : P (x :: s)) :
    sites P (x :: s) = sites P s + 1 := by
  unfold sites
  rw [List.tails_cons, List.countP_cons_of_pos (by simpa using h)]

theorem sites_cons_of_neg (h : ¬ P (x :: s)) :
    sites P (x :: s) = sites P s := by
  unfold sites
  rw [List.tails_cons, List.countP_cons_of_neg (by simpa using h)]

theorem sites_append {p s : List UInt8} (h : ∀ q, q <:+ p → q ≠ [] → ¬ P (q ++ s)) :
    sites P (p ++ s) = sites P s := by
  induction p with
  | nil => rfl
  | cons x p ih =>
    have hhere : ¬ P (x :: (p ++ s)) := h (x :: p) List.suffix_rfl (by simp)
    rw [List.cons_append, sites_cons_of_neg hhere]
    exact ih fun q hq => h q (hq.trans (List.suffix_cons x p))

theorem sites_le_append (p s : List UInt8) : sites P s ≤ sites P (p ++ s) := by
  induction p with
  | nil => exact le_rfl
  | cons x p ih =>
    by_cases h : P (x :: (p ++ s))
    · rw [List.cons_append, sites_cons_of_pos h]
      omega
    · rwa [List.cons_append, sites_cons_of_neg h]

theorem sites_mono (h : ∀ t, P t → Q t) (s : List UInt8) : sites P s ≤ sites Q s := by
  refine List.countP_mono_left fun t _ ht => ?_
  simpa using h t (by simpa using ht)

theorem sites_lt (h : ∀ t, P t → Q t) {s t : List UInt8} (hle : x :: s <:+ t)
    (hq : Q (x :: s)) (hp : ¬ P (x :: s)) : sites P t < sites Q t := by
  induction t with
  | nil => cases List.suffix_nil.mp hle
  | cons y t ih =>
    have hmono := sites_mono h t
    rcases List.suffix_cons_iff.mp hle with heq | hle
    · obtain ⟨rfl, rfl⟩ := List.cons.inj heq
      rw [sites_cons_of_pos hq, sites_cons_of_neg hp]
      omega
    · have hlt := ih hle
      by_cases hy : P (y :: t)
      · rw [sites_cons_of_pos hy, sites_cons_of_pos (h _ hy)]
        omega
      · have hcons := sites_le_append (P := Q) [y] t
        rw [sites_cons_of_neg hy]
        exact hlt.trans_le hcons

end Sites

/-- The encoding of a character other than the replacement starts here. -/
def Encoded (replacement : Char) (s : List UInt8) : Prop :=
  ∃ c, c ≠ replacement ∧ String.utf8EncodeChar c <+: s

/-- A reading has no more characters than there are encodings. -/
theorem Decodes.count_le {replacement : Char} {cs : List Char}
    (h : Decodes replacement s cs) :
    cs.countP (· ≠ replacement) ≤ sites (Encoded replacement) s := by
  induction h with
  | nil => exact Nat.zero_le _
  | pending _ => exact Nat.zero_le _
  | @char c s cs _ ih =>
    by_cases hc : c = replacement
    · rw [List.countP_cons_of_neg (by simpa using hc)]
      exact ih.trans (sites_le_append _ s)
    · have hhere : Encoded replacement (String.utf8EncodeChar c ++ s) :=
        ⟨c, hc, List.prefix_append _ s⟩
      obtain ⟨b, rest, hencode⟩ :=
        List.exists_cons_of_ne_nil (String.utf8EncodeChar_ne_nil (c := c))
      rw [hencode, List.cons_append] at hhere ⊢
      have hle := sites_le_append (P := Encoded replacement) rest s
      rw [List.countP_cons_of_pos (by simpa using hc), sites_cons_of_pos hhere]
      omega
  | @illFormed p s cs n _ _ _ _ ih =>
    have hnone : (List.replicate n replacement).countP (· ≠ replacement) = 0 := by simp
    rw [List.countP_append, hnone, Nat.zero_add]
    exact ih.trans (sites_le_append p s)

end Utf8
