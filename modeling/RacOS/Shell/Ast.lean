import RacOS.Lib.CStrings
import RacOS.Lib.Utf8

/-!
# Words of the shell

The words of the syntax trees of `shell/src/ast.rs`.  A string is the list of its characters; where
the source goes over the bytes of a string, `asBytes` has them.
-/

namespace RacOS.Shell

abbrev Text := List Char

/-- What holds of every character of a text is decided along the text. -/
instance decidableForallMem (p : Char → Prop) [DecidablePred p] (s : Text) :
    Decidable (∀ c ∈ s, p c) :=
  List.decidableBAll p s

instance decidableMem (s : Text) (texts : List Text) : Decidable (s ∈ texts) :=
  List.instDecidableMemOfLawfulBEq s texts

/-- The bytes of a text, each of them cast to a character. -/
def asBytes (s : Text) : Text := (Utf8.encode s).map fun b => Char.ofNat b.toNat

/-- Every character takes one byte. -/
def Ascii (s : Text) : Prop := ∀ c ∈ s, c.toNat < 128

instance (s : Text) : Decidable (Ascii s) := decidableForallMem (fun c => c.toNat < 128) s

theorem asBytes_cons (c : Char) (s : Text) : asBytes (c :: s) = asBytes [c] ++ asBytes s := by
  simp [asBytes, Utf8.encode]

theorem asBytes_singleton {c : Char} (hc : c.toNat < 128) : asBytes [c] = [c] := by
  have hsize : c.utf8Size = 1 := Char.utf8Size_eq_one_iff.mpr (by
    rw [UInt32.le_iff_toNat_le]
    exact Nat.le_of_lt_succ hc)
  have hbyte : c.val.toUInt8.toNat = c.toNat := by
    rw [UInt32.toNat_toUInt8]
    exact Nat.mod_eq_of_lt (Nat.lt_trans hc (by decide))
  calc asBytes [c]
      = [Char.ofNat c.val.toUInt8.toNat] := by
        rw [asBytes, Utf8.encode, List.flatMap_singleton,
          String.utf8EncodeChar_eq_singleton hsize, List.map_singleton]
    _ = [c] := by rw [hbyte, Char.ofNat_toNat]

theorem asBytes_of_ascii {s : Text} (hs : Ascii s) : asBytes s = s := by
  induction s with
  | nil => rfl
  | cons c s ih =>
    obtain ⟨hc, hrest⟩ := List.forall_mem_cons.mp hs
    rw [asBytes_cons, asBytes_singleton hc, ih hrest, List.singleton_append]

theorem asBytes_append (s t : Text) : asBytes (s ++ t) = asBytes s ++ asBytes t := by
  simp [asBytes, Utf8.encode]

theorem toNat_byte (b : UInt8) : (Char.ofNat b.toNat).toNat = b.toNat :=
  Utf8.toNat_charOfNat (.inl (b.toNat_lt.trans (by decide)))

/-- The bytes of any other character: a lead byte and continuation bytes. -/
theorem asBytes_high {c : Char} (hc : 128 ≤ c.toNat) : ∃ lead rest, asBytes [c] = lead :: rest ∧
    rest ≠ [] ∧ 0xC2 ≤ lead.toNat ∧ ∀ d ∈ rest, 0x80 ≤ d.toNat ∧ d.toNat ≤ 0xBF := by
  obtain ⟨b, rest, hbytes, hseq, hlength, -⟩ :=
    Utf8.bytesOf_sequence (Nat.lt_of_succ_le hc) (Utf8.toNat_le c)
  have hcases := Utf8.announced_cases hseq.lead
  refine ⟨Char.ofNat b.toNat, rest.map fun x => Char.ofNat x.toNat, ?_, ?_, ?_, ?_⟩
  · rw [asBytes, Utf8.encode, List.flatMap_singleton, Utf8.utf8EncodeChar_eq, hbytes, List.map_cons]
  · intro hnil
    rw [List.map_eq_nil_iff.mp hnil, List.length_nil] at hlength
    omega
  · rw [toNat_byte]
    omega
  · intro d hd
    obtain ⟨x, hx, rfl⟩ := List.mem_map.mp hd
    rw [toNat_byte]
    exact (hseq.rest x hx).range

/-- Characters of one byte are not made by others. -/
theorem count_asBytes {d : Char} (hd : d.toNat < 128) (s : Text) :
    (asBytes s).count d = s.count d := by
  induction s with
  | nil => rfl
  | cons c s ih =>
    rw [asBytes_cons, List.count_append, ih]
    rcases Nat.lt_or_ge c.toNat 128 with hc | hc
    · rw [asBytes_singleton hc, ← List.count_append, List.singleton_append]
    · obtain ⟨lead, rest, hbytes, -, hlead, hrest⟩ := asBytes_high hc
      have hzero : (lead :: rest).count d = 0 := by
        refine List.count_eq_zero.mpr fun hmem => ?_
        rcases List.mem_cons.mp hmem with rfl | hmem
        · omega
        · have := hrest d hmem
          omega
      rw [hbytes, hzero, List.count_cons_of_ne (by rintro rfl; omega), Nat.zero_add]

theorem mem_asBytes_iff {d : Char} (hd : d.toNat < 128) {s : Text} : d ∈ asBytes s ↔ d ∈ s := by
  rw [← List.count_pos_iff, count_asBytes hd, List.count_pos_iff]

/-- A text is as long as its bytes only if all its characters take one. -/
theorem ascii_of_length (s : Text) :
    s.length ≤ (asBytes s).length ∧ ((asBytes s).length = s.length → Ascii s) := by
  induction s with
  | nil => exact ⟨le_rfl, fun _ => by simp [Ascii]⟩
  | cons c s ih =>
    rw [asBytes_cons, List.length_append, List.length_cons]
    rcases Nat.lt_or_ge c.toNat 128 with hc | hc
    · rw [asBytes_singleton hc, List.length_singleton]
      exact ⟨by omega, fun h => List.forall_mem_cons.mpr ⟨hc, ih.2 (by omega)⟩⟩
    · obtain ⟨lead, rest, hbytes, hne, -⟩ := asBytes_high hc
      have hpos := List.length_pos_iff.mpr hne
      rw [hbytes, List.length_cons]
      exact ⟨by omega, fun h => by omega⟩

theorem asBytes_eq_nil_iff {s : Text} : asBytes s = [] ↔ s = [] := by
  constructor
  · intro h
    have hlength := (ascii_of_length s).1
    rwa [h, List.length_nil, Nat.le_zero, List.length_eq_zero_iff] at hlength
  · rintro rfl
    rfl

inductive GlobPattern
  | star
  | question
  | bracket (s : Text)
  deriving DecidableEq

inductive WordPart
  | literal (s : Text)
  | singleQuoted (s : Text)
  | doubleQuoted (s : Text)
  | variable (name : Text)
  | commandSub (cmd : Text)
  | braceExpansion (s : Text)
  | glob (pattern : GlobPattern)
  deriving DecidableEq

structure Word where
  parts : List WordPart
  deriving DecidableEq

end RacOS.Shell
