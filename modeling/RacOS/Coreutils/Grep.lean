import Mathlib.Data.List.Infix
import Mathlib.Data.List.TakeWhile
import Mathlib.Data.Nat.Notation

/-!
# grep

The model of `userland/coreutils/grep/src/main.rs`: the bytes of the input are collected into lines
in a buffer of fixed size, and a line is printed if the matcher accepts one of its tails.

Every line that the matcher accepts has the pattern in it.  The matcher takes a star up to the
first place where the next byte of the pattern stands and never goes back, so it finds the pattern
only where it fits in this way.
-/

namespace RacOS.Coreutils.Grep

/-! ## The model -/

abbrev star : UInt8 := 0x2A

abbrev question : UInt8 := 0x3F

abbrev newline : UInt8 := 0x0A

def toLower (b : UInt8) : UInt8 := if 0x41 ≤ b ∧ b ≤ 0x5A then b + 32 else b

/-- A byte as it is compared. -/
def fold (caseInsensitive : Bool) (b : UInt8) : UInt8 := if caseInsensitive then toLower b else b

/-- Match the pattern against the beginning of the haystack. -/
def matchAt (ci : Bool) : (pattern haystack : List UInt8) → Bool
  | [], _ => true
  | p :: pattern, [] => (p :: pattern).all (· == star)
  | p :: pattern, h :: haystack =>
    if fold ci p = star then
      match pattern.head? with
      | none => true
      | some next =>
        -- skip to the next matching byte
        matchAt ci pattern ((h :: haystack).dropWhile fun b => fold ci b != fold ci next)
    else if fold ci p = question then matchAt ci pattern haystack
    else if fold ci h ≠ fold ci p then false
    else matchAt ci pattern haystack

def bufContains (haystack needle : List UInt8) (ci : Bool) : Bool :=
  if needle = [] then true
  else (List.range (haystack.length + 1)).any fun start => matchAt ci needle (haystack.drop start)

/-- The line so far, and what has been written. -/
structure Progress where
  line : List UInt8 := []
  out : List UInt8 := []

/-- Write the line if the pattern is in it. -/
def Progress.print (s : Progress) (ci : Bool) (pattern : List UInt8) : List UInt8 :=
  if bufContains s.line pattern ci then s.out ++ s.line ++ [newline] else s.out

def Progress.byte (ci : Bool) (pattern : List UInt8) (s : Progress) (b : UInt8) : Progress :=
  if b = newline then { line := [], out := s.print ci pattern }
  else if s.line.length < 512 - 1 then { s with line := s.line ++ [b] }
  else s

/-- The results of the reads, one after the other; `none` is an error. -/
abbrev Reads := List (Option (List UInt8))

def readLoop (ci : Bool) (pattern : List UInt8) : Reads → Progress → Progress
  | some (b :: buf) :: reads, s =>
    readLoop ci pattern reads ((b :: buf).foldl (Progress.byte ci pattern) s)
  | _, s => s

/-- What is written for an input. -/
def output (ci : Bool) (pattern : List UInt8) (reads : Reads) : List UInt8 :=
  let s := readLoop ci pattern reads {}
  if s.line ≠ [] then s.print ci pattern else s.out

structure Outcome where
  code : ℕ
  stdout : List UInt8 := []
  stderr : String := ""

/-- The option for comparing without case. -/
abbrev ignoreCase : List UInt8 := [0x2D, 0x69]

/-- The input: a file if there is one more argument, or else the standard input. -/
def input (openFile : List UInt8 → Option Reads) (stdin : Reads) (files : List (List UInt8)) :
    Option Reads :=
  match files with
  | [] => some stdin
  | path :: _ => openFile path

/-- After the option: the pattern, and perhaps a file. -/
def search (openFile : List UInt8 → Option Reads) (stdin : Reads) (ci : Bool) :
    (args : List (List UInt8)) → Outcome
  | [] => { code := 1, stderr := "grep: missing pattern\n" }
  | pattern :: files =>
    match input openFile stdin files with
    | none => { code := 1, stderr := "grep: cannot open file\n" }
    | some reads => { code := 0, stdout := output ci pattern reads }

def main (openFile : List UInt8 → Option Reads) (stdin : Reads) (args : List (List UInt8)) :
    Outcome :=
  if args.head? = some ignoreCase then search openFile stdin true args.tail
  else search openFile stdin false args

/-! ## What should be printed -/

/-- A byte that stands for itself. -/
def Literal (c : UInt8) : Prop := c ≠ star ∧ c ≠ question

/-- The strings of a pattern. -/
inductive Matches (ci : Bool) : (pattern string : List UInt8) → Prop
  | nil : Matches ci [] []
  | star {pattern s : List UInt8} (skipped : List UInt8) (h : Matches ci pattern s) :
      Matches ci (star :: pattern) (skipped ++ s)
  | question {pattern s : List UInt8} (b : UInt8) (h : Matches ci pattern s) :
      Matches ci (question :: pattern) (b :: s)
  | literal {c b : UInt8} {pattern s : List UInt8} (hc : Literal c) (hb : fold ci b = fold ci c)
      (h : Matches ci pattern s) : Matches ci (c :: pattern) (b :: s)

/-- The pattern occurs somewhere in a line. -/
def Occurs (ci : Bool) (pattern line : List UInt8) : Prop :=
  ∃ s, s <:+: line ∧ Matches ci pattern s

/-- The lines that pieces between newlines make: all but an empty one at the end. -/
def linesOf (pieces : List (List UInt8)) : List (List UInt8) :=
  if pieces.getLast? = some [] then pieces.dropLast else pieces

/-- The lines of an input. -/
def lines (stream : List UInt8) : List (List UInt8) := linesOf (stream.splitOn newline)

/-- The pattern fits at the beginning of a string when each star stands for the bytes up to the
first place where the byte after it in the pattern stands.  Where it stands nowhere, only stars may
be left. -/
inductive FirstFit (ci : Bool) : (pattern string : List UInt8) → Prop
  | nil (s : List UInt8) : FirstFit ci [] s
  | last (s : List UInt8) : FirstFit ci [star] s
  | ends {pattern : List UInt8} (h : ∀ c ∈ pattern, c = star) : FirstFit ci pattern []
  | star {next b : UInt8} {pattern s : List UInt8} (skipped : List UInt8)
      (hskipped : ∀ x ∈ skipped, fold ci x ≠ fold ci next) (hb : fold ci b = fold ci next)
      (h : FirstFit ci (next :: pattern) (b :: s)) :
      FirstFit ci (star :: next :: pattern) (skipped ++ b :: s)
  | starEnds {next : UInt8} {pattern s : List UInt8} (hs : ∀ x ∈ s, fold ci x ≠ fold ci next)
      (h : ∀ c ∈ next :: pattern, c = Grep.star) : FirstFit ci (Grep.star :: next :: pattern) s
  | question {pattern s : List UInt8} (b : UInt8) (h : FirstFit ci pattern s) :
      FirstFit ci (question :: pattern) (b :: s)
  | literal {c b : UInt8} {pattern s : List UInt8} (hc : Literal c) (hb : fold ci b = fold ci c)
      (h : FirstFit ci pattern s) : FirstFit ci (c :: pattern) (b :: s)

/-- The pattern fits in this way somewhere in a line. -/
def FitsSomewhere (ci : Bool) (pattern line : List UInt8) : Prop :=
  ∃ s, s <:+ line ∧ FirstFit ci pattern s

open Classical in
/-- The lines with the pattern in them, each with a newline. -/
noncomputable def selected (ci : Bool) (pattern stream : List UInt8) : List UInt8 :=
  ((lines stream).filter fun line => Occurs ci pattern line).flatMap (· ++ [newline])

/-! ## The matcher -/

variable {ci : Bool} {p c b : UInt8} {pattern haystack line : List UInt8}

theorem fold_eq_iff (hc : c = star ∨ c = question) : fold ci p = c ↔ p = c := by
  unfold fold toLower
  split
  · split
    · rename_i hupper
      have hlo := UInt8.le_iff_toNat_le.mp hupper.1
      have hhi := UInt8.le_iff_toNat_le.mp hupper.2
      have hsum : (p + 32).toNat = p.toNat + 32 := by
        rw [UInt8.toNat_add]
        change (p.toNat + 32) % 256 = _
        change p.toNat ≤ 90 at hhi
        omega
      change 65 ≤ p.toNat at hlo
      constructor
      · intro h
        have hnat := congrArg UInt8.toNat h
        rcases hc with rfl | rfl
        · change (p + 32).toNat = 42 at hnat
          omega
        · change (p + 32).toNat = 63 at hnat
          omega
      · rintro rfl
        rcases hc with rfl | rfl
        · change 65 ≤ 42 at hlo
          omega
        · change 65 ≤ 63 at hlo
          omega
    · exact Iff.rfl
  · exact Iff.rfl

theorem matchAt_star_nil : matchAt ci [star] (b :: haystack) = true := by
  rw [matchAt, if_pos ((fold_eq_iff (.inl rfl)).mpr rfl)]
  rfl

theorem matchAt_star_cons (next : UInt8) :
    matchAt ci (star :: next :: pattern) (b :: haystack) =
      matchAt ci (next :: pattern)
        ((b :: haystack).dropWhile fun b => fold ci b != fold ci next) := by
  rw [matchAt, if_pos ((fold_eq_iff (.inl rfl)).mpr rfl)]
  rfl

theorem matchAt_question :
    matchAt ci (question :: pattern) (b :: haystack) = matchAt ci pattern haystack := by
  rw [matchAt, if_neg (fun h => absurd ((fold_eq_iff (.inl rfl)).mp h) (by decide)),
    if_pos ((fold_eq_iff (.inr rfl)).mpr rfl)]

theorem matchAt_literal (hc : Literal c) :
    matchAt ci (c :: pattern) (b :: haystack) = true ↔
      fold ci b = fold ci c ∧ matchAt ci pattern haystack = true := by
  rw [matchAt, if_neg fun h => hc.1 ((fold_eq_iff (.inl rfl)).mp h),
    if_neg fun h => hc.2 ((fold_eq_iff (.inr rfl)).mp h)]
  by_cases hb : fold ci b = fold ci c
  · rw [if_neg (not_not_intro hb)]
    exact ⟨fun h => ⟨hb, h⟩, And.right⟩
  · rw [if_pos hb]
    exact ⟨fun h => absurd h Bool.false_ne_true, fun h => absurd h.1 hb⟩

/-- The pattern matches at the beginning of a string. -/
def Begins (ci : Bool) (pattern haystack : List UInt8) : Prop :=
  ∃ s, s <+: haystack ∧ Matches ci pattern s

theorem Begins.star {tail : List UInt8} (h : Begins ci pattern tail) (hle : tail <:+ haystack) :
    Begins ci (Grep.star :: pattern) haystack := by
  obtain ⟨s, ⟨rest, rfl⟩, hs⟩ := h
  obtain ⟨skipped, rfl⟩ := hle
  exact ⟨skipped ++ s, ⟨rest, List.append_assoc ..⟩, .star skipped hs⟩

theorem begins_stars (h : ∀ c ∈ pattern, c = star) : Begins ci pattern haystack := by
  induction pattern with
  | nil => exact ⟨[], List.nil_prefix, .nil⟩
  | cons p pattern ih =>
    rw [h p List.mem_cons_self]
    exact (ih fun c hc => h c (List.mem_cons_of_mem p hc)).star List.suffix_rfl

/-- Where the pattern fits, it matches. -/
theorem FirstFit.begins (h : FirstFit ci pattern haystack) : Begins ci pattern haystack := by
  induction h with
  | nil => exact ⟨[], List.nil_prefix, .nil⟩
  | last => exact begins_stars (by simp)
  | ends h => exact begins_stars h
  | star skipped _ _ _ ih => exact ih.star (List.suffix_append skipped _)
  | starEnds _ h => exact (begins_stars h).star List.suffix_rfl
  | question b _ ih =>
    obtain ⟨s, hs, hmatches⟩ := ih
    exact ⟨b :: s, List.cons_prefix_cons.mpr ⟨rfl, hs⟩, .question b hmatches⟩
  | @literal c b _ _ hc hb _ ih =>
    obtain ⟨s, hs, hmatches⟩ := ih
    exact ⟨b :: s, List.cons_prefix_cons.mpr ⟨rfl, hs⟩, .literal hc hb hmatches⟩

theorem firstFit_nil_iff : FirstFit ci pattern [] ↔ ∀ c ∈ pattern, c = star := by
  refine ⟨fun h => ?_, fun h => .ends h⟩
  generalize hs : ([] : List UInt8) = s at h
  cases h with
  | nil => simp
  | last => simp
  | ends h => exact h
  | star skipped => simp at hs
  | starEnds _ h => simpa using h
  | question => cases hs
  | literal => cases hs

/-- A star: the rest of the pattern fits from the first place on where its first byte stands. -/
theorem firstFit_star_iff {next : UInt8} :
    FirstFit ci (star :: next :: pattern) haystack ↔
      FirstFit ci (next :: pattern) (haystack.dropWhile fun b => fold ci b != fold ci next) := by
  have hsplit := List.takeWhile_append_dropWhile (p := fun b => fold ci b != fold ci next)
    (l := haystack)
  have htaken : ∀ x ∈ haystack.takeWhile (fun b => fold ci b != fold ci next),
      fold ci x ≠ fold ci next := fun x hx => by simpa using List.mem_takeWhile_imp hx
  constructor
  · intro h
    cases h with
    | ends h => exact .ends fun c hc => h c (List.mem_cons_of_mem _ hc)
    | @star _ b _ s skipped hskipped hb h =>
      rw [List.dropWhile_append_of_pos (by simpa using hskipped),
        List.dropWhile_cons_of_neg (by simp [hb])]
      exact h
    | starEnds hs h =>
      rw [List.dropWhile_eq_nil_iff.mpr (by simpa using hs)]
      exact .ends h
    | literal hc => exact absurd rfl hc.1
  · intro h
    cases hrest : haystack.dropWhile fun b => fold ci b != fold ci next with
    | nil =>
      rw [hrest] at h hsplit
      rw [List.append_nil] at hsplit
      rw [hsplit] at htaken
      exact .starEnds htaken (firstFit_nil_iff.mp h)
    | cons b rest =>
      rw [hrest] at h hsplit
      have hb : fold ci b = fold ci next := by
        have hhead := List.head?_dropWhile_not (fun b => fold ci b != fold ci next) haystack
        rw [hrest] at hhead
        simpa using hhead
      rw [← hsplit]
      exact .star _ htaken hb h

/-- The matcher accepts the strings at whose beginning the pattern fits. -/
theorem matchAt_iff : matchAt ci pattern haystack = true ↔ FirstFit ci pattern haystack := by
  induction pattern generalizing haystack with
  | nil => exact ⟨fun _ => .nil _, fun _ => by rw [matchAt]⟩
  | cons p pattern ih =>
    cases haystack with
    | nil =>
      rw [matchAt, List.all_eq_true]
      simp only [beq_iff_eq]
      exact firstFit_nil_iff.symm
    | cons b haystack =>
      by_cases hstar : p = star
      · subst hstar
        cases pattern with
        | nil => exact ⟨fun _ => .last _, fun _ => matchAt_star_nil⟩
        | cons next pattern =>
          rw [matchAt_star_cons, ih]
          exact firstFit_star_iff.symm
      by_cases hquestion : p = question
      · subst hquestion
        rw [matchAt_question, ih]
        refine ⟨fun h => .question b h, fun h => ?_⟩
        cases h with
        | question _ h => exact h
        | literal hc => exact absurd rfl hc.2
      · rw [matchAt_literal ⟨hstar, hquestion⟩, ih]
        refine ⟨fun h => .literal ⟨hstar, hquestion⟩ h.1 h.2, fun h => ?_⟩
        generalize hs : b :: haystack = s at h
        cases h with
        | last => exact absurd rfl hstar
        | ends => cases hs
        | star => exact absurd rfl hstar
        | starEnds => exact absurd rfl hstar
        | question => exact absurd rfl hquestion
        | literal _ hb h =>
          cases hs
          exact ⟨hb, h⟩

/-- The matcher tries every tail of a line. -/
theorem bufContains_iff : bufContains line pattern ci = true ↔ FitsSomewhere ci pattern line := by
  have htails : bufContains line pattern ci = true ↔
      ∃ start ≤ line.length, FirstFit ci pattern (line.drop start) := by
    unfold bufContains
    split
    · rename_i hnil
      subst hnil
      exact ⟨fun _ => ⟨0, Nat.zero_le _, .nil _⟩, fun _ => rfl⟩
    · simp only [List.any_eq_true, List.mem_range, Nat.lt_succ_iff, matchAt_iff]
  rw [htails]
  constructor
  · rintro ⟨start, -, h⟩
    exact ⟨_, List.drop_suffix start line, h⟩
  · rintro ⟨s, ⟨before, rfl⟩, h⟩
    exact ⟨before.length, by simp, by rwa [List.drop_left]⟩

theorem FitsSomewhere.occurs (h : FitsSomewhere ci pattern line) : Occurs ci pattern line := by
  obtain ⟨s, hs, h⟩ := h
  obtain ⟨found, hfound, hmatches⟩ := h.begins
  exact ⟨found, hfound.isInfix.trans hs.isInfix, hmatches⟩

theorem Occurs.of_infix {part : List UInt8} (h : Occurs ci pattern part) (hpart : part <:+: line) :
    Occurs ci pattern line := by
  obtain ⟨s, hs, hmatches⟩ := h
  exact ⟨s, hs.trans hpart, hmatches⟩

/-! ## Lines -/

theorem splitOn_cons (b : UInt8) (stream : List UInt8) :
    (b :: stream).splitOn newline = if b = newline then [] :: stream.splitOn newline
      else (stream.splitOn newline).modifyHead (b :: ·) := by
  unfold List.splitOn
  rw [List.splitOnP_cons_eq_if_modifyHead]
  simp only [beq_iff_eq]

theorem splitOn_eq_cons (stream : List UInt8) :
    ∃ piece pieces, stream.splitOn newline = piece :: pieces :=
  List.exists_cons_of_ne_nil (List.splitOnP_ne_nil _ stream)

theorem linesOf_cons {pieces : List (List UInt8)} (h : pieces ≠ []) :
    linesOf (line :: pieces) = line :: linesOf pieces := by
  obtain ⟨piece, pieces, rfl⟩ := List.exists_cons_of_ne_nil h
  unfold linesOf
  rw [List.getLast?_cons_cons, List.dropLast_cons_cons]
  split <;> rfl

theorem linesOf_singleton (line : List UInt8) :
    linesOf [line] = if line = [] then [] else [line] := by
  by_cases hnil : line = []
  · subst hnil
    rfl
  · rw [if_neg hnil]
    exact if_neg fun h => hnil (Option.some.inj h)

/-- What is written for a line: as much of it as the buffer holds, if the matcher accepts that. -/
def printed (ci : Bool) (pattern line : List UInt8) : List UInt8 :=
  if bufContains (line.take 511) pattern ci then line.take 511 ++ [newline] else []

/-- What is written at the end. -/
def Progress.finish (s : Progress) (ci : Bool) (pattern : List UInt8) : List UInt8 :=
  if s.line ≠ [] then s.print ci pattern else s.out

theorem Progress.print_eq {s : Progress} (hline : s.line = line.take 511) :
    s.print ci pattern = s.out ++ printed ci pattern line := by
  unfold Progress.print printed
  rw [hline]
  split
  · rw [List.append_assoc]
  · rw [List.append_nil]

/-- One byte of a line: the buffer keeps the beginning of the line. -/
theorem Progress.byte_eq {s : Progress} (hline : s.line = line.take 511) (hb : b ≠ newline) :
    s.byte ci pattern b = { s with line := (line ++ [b]).take 511 } := by
  have hlength : s.line.length = min 511 line.length := by rw [hline, List.length_take]
  unfold Progress.byte
  rw [if_neg hb]
  by_cases hroom : s.line.length < 512 - 1
  · rw [if_pos hroom, List.take_of_length_le (by simp; omega), hline,
      List.take_of_length_le (by omega)]
  · rw [if_neg hroom, List.take_append_of_le_length (by omega), ← hline]

/-- The loop over the bytes: the buffer holds the beginning of the first piece. -/
theorem finish_foldl {s : Progress} (hline : s.line = line.take 511) (stream : List UInt8) :
    (stream.foldl (Progress.byte ci pattern) s).finish ci pattern =
      s.out ++ (linesOf ((stream.splitOn newline).modifyHead (line ++ ·))).flatMap
        (printed ci pattern) := by
  induction stream generalizing s line with
  | nil =>
    change s.finish ci pattern = s.out ++ (linesOf [line ++ []]).flatMap _
    have hnil : s.line = [] ↔ line = [] := by simp [hline]
    unfold Progress.finish
    rw [List.append_nil, linesOf_singleton]
    by_cases hempty : line = []
    · rw [if_neg (not_not_intro (hnil.mpr hempty)), if_pos hempty]
      exact (List.append_nil _).symm
    · rw [if_pos (mt hnil.mp hempty), if_neg hempty, s.print_eq hline, List.flatMap_singleton]
  | cons b stream ih =>
    rw [List.foldl_cons]
    obtain ⟨piece, pieces, hpieces⟩ := splitOn_eq_cons stream
    rw [splitOn_cons]
    by_cases hb : b = newline
    · have hbyte : Progress.byte ci pattern s b = { line := [], out := s.print ci pattern } :=
        if_pos hb
      have hid : (stream.splitOn newline).modifyHead (([] : List UInt8) ++ ·) =
          stream.splitOn newline := by
        rw [hpieces]
        rfl
      have hne : stream.splitOn newline ≠ [] := List.splitOnP_ne_nil _ stream
      rw [if_pos hb, List.modifyHead_cons, List.append_nil, hbyte, linesOf_cons hne,
        List.flatMap_cons, @ih [] _ rfl, hid, s.print_eq hline, List.append_assoc]
    · have hmodify : ((stream.splitOn newline).modifyHead (b :: ·)).modifyHead (line ++ ·) =
          (stream.splitOn newline).modifyHead ((line ++ [b]) ++ ·) := by
        rw [hpieces]
        simp
      rw [if_neg hb, hmodify, Progress.byte_eq hline hb]
      exact ih rfl

open Classical in
/-- What should be written for a line. -/
noncomputable def wanted (ci : Bool) (pattern line : List UInt8) : List UInt8 :=
  if Occurs ci pattern line then line ++ [newline] else []

theorem selected_eq (ci : Bool) (pattern stream : List UInt8) :
    selected ci pattern stream = (lines stream).flatMap (wanted ci pattern) := by
  classical
  unfold selected
  induction lines stream with
  | nil => rfl
  | cons l ls ih =>
    rw [List.flatMap_cons, wanted, List.filter_cons, ← ih]
    by_cases h : Occurs ci pattern l
    · simp [h]
    · simp [h]

/-- What is written for a line is no longer than what should be, and as long only if it is the
same: the pattern does not occur, or it fits and the line is not too long. -/
theorem length_printed (ci : Bool) (pattern line : List UInt8) :
    (printed ci pattern line).length ≤ (wanted ci pattern line).length ∧
      ((printed ci pattern line).length = (wanted ci pattern line).length →
        Occurs ci pattern line → line.length ≤ 511 ∧ FitsSomewhere ci pattern line) := by
  unfold printed wanted
  by_cases hoccurs : Occurs ci pattern line
  · rw [if_pos hoccurs]
    by_cases hfits : bufContains (line.take 511) pattern ci = true
    · rw [if_pos hfits]
      simp only [List.length_append, List.length_take, List.length_singleton]
      refine ⟨by omega, fun hlength _ => ⟨by omega, ?_⟩⟩
      rwa [List.take_of_length_le (by omega), bufContains_iff] at hfits
    · rw [if_neg hfits]
      simp
  · have hfits : ¬bufContains (line.take 511) pattern ci = true := fun h =>
      hoccurs ((bufContains_iff.mp h).occurs.of_infix (List.take_prefix 511 line).isInfix)
    rw [if_neg hfits]
    exact ⟨Nat.zero_le _, fun _ h => absurd h hoccurs⟩

theorem printed_eq_wanted
    (h : Occurs ci pattern line → line.length ≤ 511 ∧ FitsSomewhere ci pattern line) :
    printed ci pattern line = wanted ci pattern line := by
  unfold printed wanted
  by_cases hoccurs : Occurs ci pattern line
  · obtain ⟨hlength, hfits⟩ := h hoccurs
    rw [if_pos hoccurs, List.take_of_length_le hlength, if_pos (bufContains_iff.mpr hfits)]
  · rw [if_neg hoccurs, if_neg fun hfits => hoccurs
      ((bufContains_iff.mp hfits).occurs.of_infix (List.take_prefix 511 line).isInfix)]

/-- The same is written for all lines together exactly if it is for each. -/
theorem flatMap_printed_eq_iff (ls : List (List UInt8)) :
    ls.flatMap (printed ci pattern) = ls.flatMap (wanted ci pattern) ↔
      ∀ l ∈ ls, Occurs ci pattern l → l.length ≤ 511 ∧ FitsSomewhere ci pattern l := by
  have hle (ls : List (List UInt8)) : (ls.flatMap (printed ci pattern)).length ≤
      (ls.flatMap (wanted ci pattern)).length := by
    induction ls with
    | nil => exact Nat.le_refl _
    | cons l ls ih =>
      simp only [List.flatMap_cons, List.length_append]
      exact Nat.add_le_add (length_printed ci pattern l).1 ih
  induction ls with
  | nil => simp
  | cons l ls ih =>
    rw [List.forall_mem_cons, List.flatMap_cons, List.flatMap_cons]
    constructor
    · intro h
      have hsum := congrArg List.length h
      simp only [List.length_append] at hsum
      have hhead := length_printed ci pattern l
      have hlength : (printed ci pattern l).length = (wanted ci pattern l).length := by
        have := hle ls
        omega
      exact ⟨hhead.2 hlength, ih.mp (List.append_inj h hlength).2⟩
    · rintro ⟨hl, hls⟩
      rw [printed_eq_wanted hl, ih.mpr hls]

theorem readLoop_chunks (s : Progress) {chunks : List (List UInt8)} (hchunks : [] ∉ chunks) :
    readLoop ci pattern (chunks.map some) s =
      chunks.flatten.foldl (Progress.byte ci pattern) s := by
  induction chunks generalizing s with
  | nil => rfl
  | cons chunk chunks ih =>
    obtain ⟨b, buf, rfl⟩ := List.exists_cons_of_ne_nil
      fun hnil => hchunks (hnil ▸ List.mem_cons_self)
    rw [List.map_cons, readLoop, ih _ fun hmem => hchunks (List.mem_cons_of_mem _ hmem),
      List.flatten_cons, List.foldl_append]

/-- **grep.**  Whatever the sizes of the reads, it writes the lines in which the pattern occurs,
complete and in their order, exactly if none of them is too long and the pattern fits in each of
them with every star taken up to the first place of the byte after it. -/
theorem main_selected_iff {openFile : List UInt8 → Option Reads} {stdin : Reads} (ci : Bool)
    {files : List (List UInt8)} (hname : ci = false → pattern ≠ ignoreCase)
    {chunks : List (List UInt8)} (hchunks : [] ∉ chunks)
    (hinput : input openFile stdin files = some (chunks.map some)) :
    main openFile stdin ((if ci then [ignoreCase] else []) ++ pattern :: files) =
        { code := 0, stdout := selected ci pattern chunks.flatten } ↔
      ∀ l ∈ lines chunks.flatten, Occurs ci pattern l →
        l.length ≤ 511 ∧ FitsSomewhere ci pattern l := by
  have houtput : output ci pattern (chunks.map some) =
      (lines chunks.flatten).flatMap (printed ci pattern) := by
    have hid : (chunks.flatten.splitOn newline).modifyHead (([] : List UInt8) ++ ·) =
        chunks.flatten.splitOn newline := by
      obtain ⟨piece, pieces, hpieces⟩ := splitOn_eq_cons chunks.flatten
      rw [hpieces]
      rfl
    have hrun := @finish_foldl ci pattern [] {} rfl chunks.flatten
    rw [hid, List.nil_append] at hrun
    change (readLoop ci pattern (chunks.map some) {}).finish ci pattern = _
    rw [readLoop_chunks {} hchunks, hrun]
    rfl
  have hmain : main openFile stdin ((if ci then [ignoreCase] else []) ++ pattern :: files) =
      { code := 0, stdout := (lines chunks.flatten).flatMap (printed ci pattern) } := by
    have hsearch : search openFile stdin ci (pattern :: files) =
        { code := 0, stdout := (lines chunks.flatten).flatMap (printed ci pattern) } := by
      rw [search, hinput]
      exact congrArg (Outcome.mk 0 · "") houtput
    unfold main
    cases ci with
    | true =>
      rw [if_pos rfl]
      exact hsearch
    | false =>
      change (if some pattern = some ignoreCase then _
        else search openFile stdin false (pattern :: files)) = _
      rw [if_neg fun h => hname rfl (Option.some.inj h)]
      exact hsearch
  rw [hmain, ← flatMap_printed_eq_iff, ← selected_eq, Outcome.mk.injEq]
  simp

/-- A line that ends in the pattern, in two reads. -/
theorem main_selected_iff_star :
    main (fun _ => none) [some [0x78, 0x61], some [0x62, 0x0A]] [[0x61, 0x2A, 0x62]] =
      { code := 0, stdout := selected false [0x61, 0x2A, 0x62] [0x78, 0x61, 0x62, 0x0A] } := by
  refine (@main_selected_iff [0x61, 0x2A, 0x62] (fun _ => none)
    [some [0x78, 0x61], some [0x62, 0x0A]] false [] (fun _ => by decide)
    [[0x78, 0x61], [0x62, 0x0A]] (by decide) rfl).mpr fun l hl _ => ?_
  have hlines : lines [[0x78, 0x61], [0x62, 0x0A]].flatten = [[0x78, 0x61, 0x62]] := by decide
  rw [hlines, List.mem_singleton] at hl
  subst hl
  exact ⟨by decide, bufContains_iff.mp (by decide)⟩

/-- The pattern occurs in this line after a place where it only begins. -/
theorem main_missed :
    main (fun _ => none) [some [0x61, 0x62, 0x78, 0x62, 0x63, 0x0A]] [[0x61, 0x2A, 0x62, 0x63]] =
        { code := 0 } ∧
      selected false [0x61, 0x2A, 0x62, 0x63] [0x61, 0x62, 0x78, 0x62, 0x63, 0x0A] =
        [0x61, 0x62, 0x78, 0x62, 0x63, 0x0A] := by
  classical
  have hliteral : ∀ c ∈ [(0x61 : UInt8), 0x62, 0x63], Literal c := by
    simp [Literal, star, question]
  have hbc : Matches false [0x62, 0x63] [0x62, 0x63] :=
    .literal (hliteral _ (by decide)) rfl (.literal (hliteral _ (by decide)) rfl .nil)
  have hmatches : Matches false [0x61, 0x2A, 0x62, 0x63] [0x61, 0x62, 0x78, 0x62, 0x63] :=
    .literal (hliteral _ (by decide)) rfl (.star [0x62, 0x78] hbc)
  have hlines : lines [0x61, 0x62, 0x78, 0x62, 0x63, 0x0A] =
      [[0x61, 0x62, 0x78, 0x62, 0x63]] := by decide
  constructor
  · rfl
  · have hoccurs : Occurs false [0x61, 0x2A, 0x62, 0x63] [0x61, 0x62, 0x78, 0x62, 0x63] :=
      ⟨_, List.infix_rfl, hmatches⟩
    unfold selected
    rw [hlines, List.filter_cons_of_pos (by exact decide_eq_true hoccurs)]
    rfl

end RacOS.Coreutils.Grep
