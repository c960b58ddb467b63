import RacOS.Lib.Utf8
import RacOS.Terminal.Decoder

/-!
# What bytes are printed

Text is decoded as UTF-8 above the escape parser.  The characters that are printed are a reading
of the bytes in which what is ill-formed is replaced, if and only if no character is encoded with
more bytes than it needs: the decoder does not look at the lengths of three and four bytes.  It
prints a character for every place where a sequence for one starts, and so more characters than
any reading has if one of the sequences is overlong.

The string of an operating system command goes to the parser, but its bytes of `0x80` and more do
not: they are printed.  So is the backslash of the longer terminator.
-/

namespace RacOS.RacTerm

open Utf8

namespace Decoder

open Terminal (replacementCharacter charFromU32)

/-! ## The decoder's arithmetic -/

theorem toNat_and_mask (b : UInt8) (k : ℕ) (mask : UInt8) (h : mask.toNat = 2 ^ k - 1) :
    (b &&& mask).toNat = b.toNat % 2 ^ k := by
  rw [UInt8.toNat_and, h, Nat.and_two_pow_sub_one_eq_mod]

theorem lead_of_announced (d : Decoder) {b : UInt8} (h : announced b ≠ 0) :
    d.lead b = ({ d with utf8 := (leadBits b, 1, announced b) }, []) := by
  unfold lead
  simp only [UInt8.le_iff_toNat_le, UInt8.reduceToNat]
  obtain ⟨hn, hlo, hbits, hhi⟩ | ⟨hn, hlo, hbits, hhi⟩ | ⟨hn, hlo, hbits, hhi⟩ :=
    announced_cases h
  · have hmask : (b &&& 0x1F).toNat = leadBits b := by
      rw [toNat_and_mask b 5 0x1F rfl, hbits]
      omega
    rw [if_pos ⟨hlo, hhi⟩, hmask, hn]
  · have hmask : (b &&& 0x0F).toNat = leadBits b := by
      rw [toNat_and_mask b 4 0x0F rfl, hbits]
      omega
    rw [if_neg (by omega), if_pos ⟨hlo, hhi⟩, hmask, hn]
  · have hmask : (b &&& 0x07).toNat = leadBits b := by
      rw [toNat_and_mask b 3 0x07 rfl, hbits]
      omega
    rw [if_neg (by omega), if_neg (by omega), if_pos ⟨hlo, hhi⟩, hmask, hn]

theorem lead_of_not_announced (d : Decoder) {b : UInt8} (h : announced b = 0) :
    d.lead b = (d, [.print replacementCharacter]) := by
  obtain ⟨h₂, h₃, h₄⟩ := announced_of_range (b := b)
  unfold lead
  simp only [UInt8.le_iff_toNat_le, UInt8.reduceToNat]
  rw [if_neg fun hr => by omega, if_neg fun hr => by omega, if_neg fun hr => by omega]

theorem shift_or_eq_push {acc : ℕ} (hacc : acc < 2 ^ 26) {b : UInt8} (hb : IsContinuation b) :
    (acc <<< 6) % 2 ^ 32 ||| (b &&& 0x3F).toNat = push acc b := by
  have hrange := hb.range
  have hmask := toNat_and_mask b 6 0x3F rfl
  rw [hmask, Nat.mod_eq_of_lt (by rw [Nat.shiftLeft_eq]; omega),
    ← Nat.shiftLeft_add_eq_or_of_lt (by omega), Nat.shiftLeft_eq]
  unfold push
  omega

/-- The decoder has read a sequence that is not complete. -/
structure Open (d : Decoder) (b : UInt8) (rest : List UInt8) : Prop where
  sequence : Sequence b rest
  length : rest.length + 1 < announced b
  utf8 : d.utf8 = (value (leadBits b) rest, rest.length + 1, announced b)

variable {d : Decoder} {b x : UInt8} {rest data : List UInt8}

theorem Open.value_lt (h : d.Open b rest) : value (leadBits b) rest < 2 ^ 26 := by
  have hlt := Utf8.value_lt (leadBits b) h.sequence.rest
  have hcases := announced_cases h.sequence.lead
  have hlength := h.length
  have hpow : 64 ^ rest.length ≤ 64 ^ 2 := Nat.pow_le_pow_right (by omega) (by omega)
  have hmul : (leadBits b + 1) * 64 ^ rest.length ≤ 32 * 64 ^ 2 :=
    Nat.mul_le_mul (by omega) hpow
  omega

theorem byte_of_le (hx : 0x80 ≤ x.toNat) :
    d.byte x = if d.utf8.2.2 = 0 then d.lead x else d.continuation x := by
  unfold byte
  rw [if_neg]
  simpa only [UInt8.lt_iff_toNat_lt, UInt8.reduceToNat, Nat.not_lt] using hx

theorem Open.byte_continuation (h : d.Open b rest) (hx : IsContinuation x) :
    d.byte x = if rest.length + 2 = announced b then
        ({ d with utf8 := (0, 0, 0) }, [.print (charFromU32 (value (leadBits b) (rest ++ [x])))])
      else
        ({ d with utf8 := (value (leadBits b) (rest ++ [x]), rest.length + 2, announced b) },
          []) := by
  have hutf8 := h.utf8
  rw [byte_of_le hx.range.1, if_neg (by rw [hutf8]; exact h.sequence.lead)]
  unfold continuation
  rw [hutf8]
  dsimp only
  rw [if_pos hx.2, shift_or_eq_push h.value_lt hx, value_append]

/-- Any other byte ends the sequence, and is then looked at by itself. -/
theorem Open.byte_other (h : d.Open b rest) (hx : ¬ IsContinuation x) :
    d.byte x = (({ d with utf8 := (0, 0, 0) } : Decoder).byte x).map id
      (.print replacementCharacter :: ·) := by
  have hutf8 := h.utf8
  have hneed : 0 < d.utf8.2.2 := by
    rw [hutf8]
    exact Nat.pos_of_ne_zero h.sequence.lead
  by_cases hascii : x < 0x80
  · unfold byte
    rw [if_pos hascii, if_pos hascii]
    unfold ascii
    dsimp only
    rw [if_pos hneed, if_neg (Nat.lt_irrefl 0)]
    rfl
  · have hle : 0x80 ≤ x.toNat := by
      simpa only [UInt8.lt_iff_toNat_lt, UInt8.reduceToNat, Nat.not_lt] using hascii
    rw [byte_of_le hle, byte_of_le hle, if_neg (Nat.pos_iff_ne_zero.mp hneed), if_pos rfl]
    unfold continuation
    dsimp only
    rw [if_neg]
    · rfl
    · intro hx'
      exact hx ⟨UInt8.le_iff_toNat_le.mpr hle, hx'⟩

/-! ## Text -/

/-- A byte that is no control byte. -/
def Plain (b : UInt8) : Prop := 0x20 ≤ b ∧ b ≠ 0x7F

/-- A sequence for a character that needs fewer bytes (and is not the replacement). -/
structure Overlong (b : UInt8) (rest : List UInt8) : Prop where
  sequence : Sequence b rest
  length : rest.length + 1 = announced b
  valid : (value (leadBits b) rest).isValidChar
  lt_least : value (leadBits b) rest < least (announced b)
  ne : value (leadBits b) rest ≠ replacementCharacter.toNat

/-- No character is encoded with more bytes than it needs. -/
def NoOverlong (data : List UInt8) : Prop := ∀ b rest, Overlong b rest → ¬ b :: rest <:+: data

theorem NoOverlong.suffix {data' : List UInt8} (h : NoOverlong data) (hle : data' <:+ data) :
    NoOverlong data' :=
  fun b rest hover hin => h b rest hover (hin.trans hle.isInfix)

theorem charFromU32_of_valid {n : ℕ} (h : n.isValidChar) : (charFromU32 n).toNat = n := by
  unfold charFromU32
  rw [if_pos h, toNat_charOfNat h]

/-- What an idle decoder prints of text: a lead byte opens a sequence, which ends with the last
byte that it announces or before a byte that is no continuation. -/
inductive Printed : List UInt8 → List Char → Prop
  | nil : Printed [] []
  | pending {b : UInt8} {rest : List UInt8} (hseq : Sequence b rest)
      (hlength : rest.length + 1 < announced b) : Printed (b :: rest) []
  | ascii {x : UInt8} {s : List UInt8} {cs : List Char} (hx : x.toNat < 0x80) (h : Printed s cs) :
      Printed (x :: s) (charOf x :: cs)
  | stray {x : UInt8} {s : List UInt8} {cs : List Char} (hx : 0x80 ≤ x.toNat)
      (hlead : announced x = 0) (h : Printed s cs) : Printed (x :: s) (replacementCharacter :: cs)
  | complete {b : UInt8} {rest s : List UInt8} {cs : List Char} (hseq : Sequence b rest)
      (hlength : rest.length + 1 = announced b) (h : Printed s cs) :
      Printed (b :: (rest ++ s)) (charFromU32 (value (leadBits b) rest) :: cs)
  | broken {b x : UInt8} {rest s : List UInt8} {cs : List Char} (hseq : Sequence b rest)
      (hlength : rest.length + 1 < announced b) (hx : ¬ IsContinuation x)
      (h : Printed (x :: s) cs) : Printed (b :: (rest ++ x :: s)) (replacementCharacter :: cs)

/-- What the decoder prints of some bytes, after others that it has kept. -/
def Reads (d : Decoder) (data all : List UInt8) : Prop :=
  ∃ cs : List Char, (d.bytes data).2 = cs.map .print ∧ Printed all cs

/-- Outside of sequences, a byte of text is printed. -/
theorem byte_plain (hidle : d.Idle) (hplain : Plain x) (hx : x.toNat < 0x80) :
    d.byte x = (d, [.print (charOf x)]) := by
  have hparser : d.parser.feed x = (d.parser, some (.print (charOf x))) := by
    have hlo := UInt8.le_iff_toNat_le.mp hplain.1
    unfold EscParser.feed
    rw [hidle.parser]
    dsimp only
    unfold EscParser.ground
    rw [if_neg, if_neg, if_neg hplain.2]
    · rw [UInt8.le_iff_toNat_le]
      exact Nat.not_le.mpr hlo
    · rintro rfl
      exact absurd hlo (by decide)
  unfold byte
  rw [if_pos (UInt8.lt_iff_toNat_lt.mpr hx)]
  unfold ascii
  rw [hparser, hidle.utf8]
  rfl

theorem Reads.cons {d' : Decoder} (cs : List Char) {all all' : List UInt8}
    (hbyte : d.byte x = (d', cs.map .print)) (h : d'.Reads data all)
    (hall : ∀ cs', Printed all cs' → Printed all' (cs ++ cs')) : d.Reads (x :: data) all' := by
  obtain ⟨cs', hcs', hprinted⟩ := h
  refine ⟨cs ++ cs', ?_, hall cs' hprinted⟩
  rw [bytes_cons, hbyte, List.map_append, ← hcs']

/-- What an idle decoder prints, if it is known what it prints of the bytes after the first. -/
theorem reads_idle (hidle : d.Idle) (hplain : Plain x)
    (hrest : ∀ d : Decoder, d.Idle → d.Reads data data)
    (hopen : ∀ d : Decoder, d.parser.state = .ground → d.Open x [] → d.Reads data (x :: data)) :
    d.Reads (x :: data) (x :: data) := by
  by_cases hascii : x.toNat < 0x80
  · exact .cons [charOf x] (byte_plain hidle hplain hascii) (hrest d hidle) fun _ => .ascii hascii
  have hbyte : d.byte x = d.lead x := by
    rw [byte_of_le (Nat.le_of_not_lt hascii), if_pos hidle.utf8]
  by_cases hlead : announced x = 0
  · rw [lead_of_not_announced d hlead] at hbyte
    exact .cons [replacementCharacter] hbyte (hrest d hidle) fun _ =>
      .stray (Nat.le_of_not_lt hascii) hlead
  · rw [lead_of_announced d hlead] at hbyte
    refine .cons [] hbyte (hopen _ hidle.parser ?_) fun cs hcs => hcs
    refine ⟨⟨hlead, by simp⟩, ?_, rfl⟩
    have := announced_cases hlead
    simp only [List.length_nil]
    omega

theorem reads_open (hground : d.parser.state = .ground) (hopen : d.Open b rest)
    (hrest : ∀ d : Decoder, d.Idle → d.Reads data data)
    (hlonger : ∀ d : Decoder, d.parser.state = .ground → d.Open b (rest ++ [x]) →
      d.Reads data (b :: (rest ++ x :: data)))
    (hidle : ∀ d : Decoder, d.Idle → d.Reads (x :: data) (x :: data)) :
    d.Reads (x :: data) (b :: (rest ++ x :: data)) := by
  have hlength := hopen.length
  by_cases hx : IsContinuation x
  · have hseq : Sequence b (rest ++ [x]) := by
      refine ⟨hopen.sequence.lead, fun y hy => ?_⟩
      rcases List.mem_append.mp hy with hy | hy
      · exact hopen.sequence.rest y hy
      · rwa [List.mem_singleton.mp hy]
    have hbyte := hopen.byte_continuation hx
    by_cases hlast : rest.length + 2 = announced b
    · rw [if_pos hlast] at hbyte
      refine .cons [_] hbyte (hrest _ ⟨hground, rfl⟩) fun cs hcs => ?_
      rw [List.append_cons]
      exact .complete hseq (by rw [List.length_append]; exact hlast) hcs
    · rw [if_neg hlast] at hbyte
      refine .cons [] hbyte (hlonger _ hground ⟨hseq, ?_, ?_⟩) fun cs hcs => hcs
      · rw [List.length_append, List.length_singleton]
        omega
      · rw [List.length_append, List.length_singleton]
  · obtain ⟨cs, hcs, hprinted⟩ := hidle { d with utf8 := (0, 0, 0) } ⟨hground, rfl⟩
    refine ⟨replacementCharacter :: cs, ?_, .broken hopen.sequence hlength hx hprinted⟩
    rw [bytes_cons] at hcs ⊢
    rw [hopen.byte_other hx]
    exact congrArg (Action.print replacementCharacter :: ·) hcs

/-- What the decoder prints, from an idle decoder on, and while a sequence is open. -/
theorem bytes_reads (hplain : ∀ x ∈ data, Plain x) : (∀ d : Decoder, d.Idle → d.Reads data data) ∧
    (∀ (d : Decoder) (b : UInt8) (rest : List UInt8), d.parser.state = .ground → d.Open b rest →
      d.Reads data (b :: (rest ++ data))) := by
  induction data with
  | nil =>
    refine ⟨fun d _ => ⟨[], rfl, .nil⟩, fun d b rest _ hopen => ⟨[], rfl, ?_⟩⟩
    rw [List.append_nil]
    exact .pending hopen.sequence hopen.length
  | cons x data ih =>
    obtain ⟨ihIdle, ihOpen⟩ := ih fun y hy => hplain y (List.mem_cons_of_mem x hy)
    have hidle : ∀ d : Decoder, d.Idle → d.Reads (x :: data) (x :: data) := fun d hd =>
      reads_idle hd (hplain x List.mem_cons_self) ihIdle fun d => ihOpen d x []
    refine ⟨hidle, fun d b rest hground hopen => ?_⟩
    refine reads_open hground hopen ihIdle (fun d hd hopen => ?_) hidle
    rw [List.append_cons]
    exact ihOpen d b (rest ++ [x]) hd hopen

/-! ## Readings -/

theorem encode_charOf (hx : x.toNat < 0x80) : String.utf8EncodeChar (charOf x) = [x] :=
  encode_ascii hx

variable {s : List UInt8} {cs : List Char}

/-- A complete sequence is an encoding, or it is replaced. -/
theorem decodes_complete (hseq : Sequence b rest)
    (hlength : rest.length + 1 = announced b) (hover : NoOverlong (b :: (rest ++ data)))
    (h : Decodes replacementCharacter data cs) :
    Decodes replacementCharacter (b :: (rest ++ data))
      (charFromU32 (value (leadBits b) rest) :: cs) := by
  by_cases hchar : (value (leadBits b) rest).isValidChar ∧
      least (announced b) ≤ value (leadBits b) rest
  · have hcode := charFromU32_of_valid hchar.1
    have hencode : String.utf8EncodeChar (charFromU32 (value (leadBits b) rest)) = b :: rest := by
      rw [utf8EncodeChar_eq, hcode]
      exact bytesOf_value hseq hlength hchar.2
    have hdecodes := Decodes.char (charFromU32 (value (leadBits b) rest)) h
    rwa [hencode] at hdecodes
  · have hreplaced : charFromU32 (value (leadBits b) rest) = replacementCharacter := by
      by_cases hvalid : (value (leadBits b) rest).isValidChar
      · have hcode := charFromU32_of_valid hvalid
        apply Char.toNat_inj.mp
        rw [hcode]
        by_contra hne
        refine hover b rest ⟨hseq, hlength, hvalid, ?_, hne⟩ ⟨[], data, rfl⟩
        exact Nat.lt_of_not_le fun hle => hchar ⟨hvalid, hle⟩
      · exact if_neg hvalid
    rw [hreplaced]
    refine Decodes.sequence hseq.rest (not_startsWell_of_value data hseq hlength ?_) h
    intro c hc
    rw [hc] at hchar
    exact Nat.lt_of_not_le fun hle => hchar ⟨c.valid, hle⟩

/-- Without overlong forms, what is printed is a reading. -/
theorem Printed.decodes (h : Printed data cs) (hover : NoOverlong data) :
    Decodes replacementCharacter data cs := by
  induction h with
  | nil => exact .nil
  | @pending b rest hseq hlength => exact .pending ⟨b, rest, rfl, hseq, hlength⟩
  | @ascii x s cs hx _ ih =>
    have hdecodes := Decodes.char (charOf x) (ih (hover.suffix (List.suffix_cons x s)))
    rwa [encode_charOf hx] at hdecodes
  | @stray x s cs hx hlead _ ih =>
    exact Decodes.sequence (List.forall_mem_nil _) (not_startsWell_of_announced s hx hlead)
      (ih (hover.suffix (List.suffix_cons x s)))
  | @complete b rest s cs hseq hlength _ ih =>
    have hle : s <:+ b :: (rest ++ s) := (List.suffix_append rest s).trans (List.suffix_cons b _)
    exact decodes_complete hseq hlength hover (ih (hover.suffix hle))
  | @broken b x rest s cs hseq hlength hx _ ih =>
    have hle : x :: s <:+ b :: (rest ++ x :: s) :=
      (List.suffix_append rest (x :: s)).trans (List.suffix_cons b _)
    refine .sequence hseq.rest ?_ (ih (hover.suffix hle))
    exact not_startsWell_of_broken hseq hlength (by simpa using hx)

/-- A character is printed for the bytes that start here: one of ASCII, or any complete sequence
for a character, overlong or not. -/
inductive Shown : List UInt8 → Prop
  | ascii {x : UInt8} (s : List UInt8) (hx : x.toNat < 0x80) : Shown (x :: s)
  | sequence {b : UInt8} {rest : List UInt8} (s : List UInt8) (hseq : Sequence b rest)
      (hlength : rest.length + 1 = announced b) (hvalid : (value (leadBits b) rest).isValidChar)
      (hne : value (leadBits b) rest ≠ replacementCharacter.toNat) : Shown (b :: (rest ++ s))

theorem Shown.of_encoded (h : Encoded replacementCharacter s) : Shown s := by
  obtain ⟨c, hne, s, rfl⟩ := h
  rw [utf8EncodeChar_eq]
  by_cases hascii : c.toNat ≤ 0x7F
  · rw [bytesOf, if_pos hascii]
    refine .ascii s ?_
    rw [toNat_ofNat (by omega)]
    omega
  · obtain ⟨b, rest, hencode, hseq, hlength, hvalue, -⟩ :=
      bytesOf_sequence (Nat.lt_of_not_le hascii) (toNat_le c)
    rw [hencode]
    refine .sequence s hseq hlength ?_ ?_
    · rw [hvalue]
      exact c.valid
    · rw [hvalue]
      exact fun heq => hne (Char.toNat_inj.mp heq)

theorem not_shown_of_isContinuation (s : List UInt8) (hx : IsContinuation x) :
    ¬ Shown (x :: s) := by
  have hrange := hx.range
  rintro (⟨_, hlt⟩ | ⟨_, hseq⟩)
  · omega
  · have := announced_cases hseq.lead
    omega

/-- Nothing starts within a sequence. -/
theorem sites_continuation (s : List UInt8) (hrest : ∀ x ∈ rest, IsContinuation x) :
    sites Shown (rest ++ s) = sites Shown s := by
  refine sites_append fun q hq hne => ?_
  obtain ⟨x, q, rfl⟩ := List.exists_cons_of_ne_nil hne
  exact not_shown_of_isContinuation _ (hrest x (hq.subset List.mem_cons_self))

theorem Shown.of_lead (h : Shown (b :: s)) (hlead : announced b ≠ 0) :
    ∃ rest, rest <+: s ∧ Sequence b rest ∧ rest.length + 1 = announced b ∧
      (value (leadBits b) rest).isValidChar ∧
      value (leadBits b) rest ≠ replacementCharacter.toNat := by
  cases h with
  | ascii _ hx =>
    have := announced_cases hlead
    omega
  | @sequence _ rest s hseq hlength hvalid hne =>
    exact ⟨rest, List.prefix_append rest s, hseq, hlength, hvalid, hne⟩

theorem not_shown_of_broken (hseq : Sequence b rest)
    (hlength : rest.length + 1 < announced b) (hs : ∀ x ∈ s.head?, ¬ IsContinuation x) :
    ¬ Shown (b :: (rest ++ s)) := by
  intro h
  obtain ⟨rest', hle, hseq', hlength', -⟩ := h.of_lead hseq.lead
  exact length_ne_of_broken hlength hs hle hseq' hlength'

/-- Of every complete sequence for a character, that character is printed. -/
theorem charFromU32_ne_of_shown (hseq : Sequence b rest)
    (hlength : rest.length + 1 = announced b) (h : Shown (b :: (rest ++ s))) :
    charFromU32 (value (leadBits b) rest) ≠ replacementCharacter := by
  obtain ⟨rest', hle, -, hlength', hvalid, hne⟩ := h.of_lead hseq.lead
  obtain rfl : rest' = rest :=
    (List.prefix_of_prefix_length_le hle (List.prefix_append rest s) (by omega)).eq_of_length
      (by omega)
  intro heq
  rw [← heq, charFromU32_of_valid hvalid] at hne
  exact hne rfl

theorem charOf_ne (hx : x.toNat < 0x80) : charOf x ≠ replacementCharacter := by
  intro heq
  have hencode := encode_charOf hx
  rw [heq] at hencode
  exact absurd (congrArg List.length hencode) (show ¬ 3 = 1 by decide)

/-- As many characters are printed as start in the bytes. -/
theorem Printed.le_count (h : Printed data cs) :
    sites Shown data ≤ cs.countP (· ≠ replacementCharacter) := by
  have hnil : sites Shown [] = 0 := sites_nil fun h => by cases h
  induction h with
  | nil => exact hnil.le
  | @pending b rest hseq hlength =>
    have hnot : ¬ Shown (b :: rest) := by
      simpa using not_shown_of_broken (s := []) hseq hlength (by simp)
    have hrest : sites Shown rest = sites Shown [] := by
      simpa using sites_continuation [] hseq.rest
    rw [sites_cons_of_neg hnot, hrest, hnil]
    exact Nat.zero_le _
  | @ascii x s cs hx _ ih =>
    rw [sites_cons_of_pos (.ascii s hx), List.countP_cons_of_pos (by simpa using charOf_ne hx)]
    exact Nat.succ_le_succ ih
  | @stray x s cs hx hlead _ ih =>
    have hnot : ¬ Shown (x :: s) := by
      rintro (⟨_, hlt⟩ | ⟨_, hseq⟩)
      · omega
      · exact hseq.lead hlead
    rw [sites_cons_of_neg hnot, List.countP_cons_of_neg (by simp)]
    exact ih
  | @complete b rest s cs hseq hlength _ ih =>
    by_cases hshown : Shown (b :: (rest ++ s))
    · have hne := charFromU32_ne_of_shown hseq hlength hshown
      rw [sites_cons_of_pos hshown, sites_continuation s hseq.rest,
        List.countP_cons_of_pos (by simpa using hne)]
      exact Nat.succ_le_succ ih
    · rw [sites_cons_of_neg hshown, sites_continuation s hseq.rest]
      exact ih.trans (List.sublist_cons_self _ cs).countP_le
  | @broken b x rest s cs hseq hlength hx _ ih =>
    have hnot := not_shown_of_broken (s := x :: s) hseq hlength (by simpa using hx)
    rw [sites_cons_of_neg hnot, sites_continuation _ hseq.rest, List.countP_cons_of_neg (by simp)]
    exact ih

/-- An overlong form is printed as a character that no reading has. -/
theorem Printed.noOverlong (h : Printed data cs)
    (hdecodes : Decodes replacementCharacter data cs) : NoOverlong data := by
  rintro b rest ⟨hseq, hlength, hvalid, hlt, hne⟩ ⟨u, s, hin⟩
  have hnot : ¬ Encoded replacementCharacter (b :: (rest ++ s)) := by
    rintro ⟨c, -, hc⟩
    refine not_startsWell_of_value s hseq hlength (fun c hc => ?_) ⟨c, hc⟩
    rwa [← hc]
  have hle : b :: (rest ++ s) <:+ data := ⟨u, by simpa using hin⟩
  have hmore : sites (Encoded replacementCharacter) data < sites Shown data :=
    sites_lt (fun _ => Shown.of_encoded) hle (.sequence s hseq hlength hvalid hne) hnot
  have hprinted := h.le_count
  have hread := hdecodes.count_le
  omega

end Decoder

namespace Terminal

/-- Feed chunks one after the other. -/
def feedChunks (t : Terminal) (chunks : List (List UInt8)) : Option Terminal :=
  chunks.foldlM feed t

theorem feedChunks_eq (t : Terminal) (chunks : List (List UInt8)) :
    t.feedChunks chunks = t.feed chunks.flatten := by
  induction chunks generalizing t with
  | nil => rfl
  | cons chunk chunks ih =>
    rw [List.flatten_cons, feed_append]
    change t.feed chunk >>= (fun t => t.feedChunks chunks) = _
    rw [funext ih]

/-- The terminal prints a reading of the bytes: it executes the prints of its characters and
nothing else. -/
def PrintsReading (t : Terminal) (chunks : List (List UInt8)) : Prop :=
  ∃ cs : List Char, Decodes replacementCharacter chunks.flatten cs ∧
    (t.decoder.bytes chunks.flatten).2 = cs.map .print ∧
    t.feedChunks chunks = t.perform ((t.decoder.bytes chunks.flatten).1, cs.map .print)

/-- **UTF-8.**  Text is printed as the characters it encodes, with replacements for what is
ill-formed, however it is cut into chunks, if and only if it has no overlong forms. -/
theorem prints_reading_iff {t : Terminal} (hidle : t.decoder.Idle) {chunks : List (List UInt8)}
    (hplain : ∀ x ∈ chunks.flatten, Decoder.Plain x) :
    t.PrintsReading chunks ↔ Decoder.NoOverlong chunks.flatten := by
  obtain ⟨cs, hcs, hprinted⟩ := (Decoder.bytes_reads hplain).1 t.decoder hidle
  constructor
  · rintro ⟨cs', hdecodes, hcs', -⟩
    have hsame : cs = cs' :=
      List.map_injective_iff.mpr (fun _ _ => Action.print.inj) (hcs.symm.trans hcs')
    exact hprinted.noOverlong (hsame ▸ hdecodes)
  · intro hover
    refine ⟨cs, hprinted.decodes hover, hcs, ?_⟩
    rw [feedChunks_eq, feed_eq, ← hcs]

/-- A letter of two bytes, the second of them in a chunk of its own, and a stray byte. -/
theorem prints_reading_iff_split : (Terminal.new 2 3).PrintsReading [[0xC3], [0xA9, 0x80]] := by
  refine (prints_reading_iff ⟨rfl, rfl⟩ ?_).mpr ?_
  · simp [Decoder.Plain]
  · intro b rest hover hin
    have hlead := hover.sequence.lead
    have hlt := hover.lt_least
    have hmem : b = 0xC3 ∨ b = 0xA9 ∨ b = 0x80 := by
      simpa using hin.subset List.mem_cons_self
    rcases hmem with rfl | rfl | rfl
    · exact absurd hlt (Nat.not_lt_zero _)
    · exact hlead rfl
    · exact hlead rfl

/-- The overlong form `E0 80 80` is printed as the character zero. -/
theorem not_prints_reading_overlong : ¬ (Terminal.new 2 3).PrintsReading [[0xE0, 0x80, 0x80]] := by
  rintro ⟨cs, hdecodes, hcs, -⟩
  have hprinted : [Action.print (Char.ofNat 0)] = cs.map .print := hcs
  obtain rfl : cs = [Char.ofNat 0] := by
    cases cs with
    | nil => cases hprinted
    | cons c cs =>
      cases cs with
      | nil =>
        cases hprinted
        rfl
      | cons c' cs => cases hprinted
  generalize hdata : [[(0xE0 : UInt8), 0x80, 0x80]].flatten = data at hdecodes
  generalize hzero : [Char.ofNat 0] = zero at hdecodes
  cases hdecodes with
  | nil => cases hzero
  | pending h => cases hzero
  | char c h =>
    obtain ⟨rfl, -⟩ := List.cons.inj hzero
    exact absurd (List.cons.inj hdata).1 (by decide)
  | illFormed n hp hn hstart h =>
    obtain ⟨n, rfl⟩ := Nat.exists_eq_succ_of_ne_zero hn
    exact absurd (List.cons.inj hzero).1 (by decide)

end Terminal

/-! ## Operating system commands -/

namespace Decoder

open Terminal (replacementCharacter)

/-- Nothing but prints. -/
def Prints (actions : List Action) : Prop := ∃ cs : List Char, actions = cs.map .print

/-- The decoder collects a string. -/
def Collects (d : Decoder) : Prop := d.parser.state = .oscString

theorem lead_prints (d : Decoder) (x : UInt8) :
    (d.lead x).1.parser = d.parser ∧ Prints (d.lead x).2 ∧ (d.lead x).2.length ≤ 1 ∧
      ((d.lead x).2 ≠ [] ∨ 0 < (d.lead x).1.utf8.2.2) := by
  by_cases h : announced x = 0
  · rw [lead_of_not_announced d h]
    exact ⟨rfl, ⟨[_], rfl⟩, le_rfl, .inl (by simp)⟩
  · rw [lead_of_announced d h]
    exact ⟨rfl, ⟨[], rfl⟩, Nat.zero_le 1, .inr (Nat.pos_of_ne_zero h)⟩

/-- A byte of a string.  If it is no ASCII, or ends a sequence, it shows at once or as soon as a
sequence ends. -/
theorem Collects.byte {d : Decoder} (h : d.Collects) {x : UInt8} (hx : x ≠ 0x07 ∧ x ≠ 0x1B) :
    (d.byte x).1.Collects ∧ Prints (d.byte x).2 ∧ (d.byte x).2.length ≤ 2 ∧
      (0 < d.utf8.2.2 ∨ ¬ x < 0x80 → (d.byte x).2 ≠ [] ∨ 0 < (d.byte x).1.utf8.2.2) ∧
      (d.utf8.2.2 = 0 → x < 0x80 → (d.byte x).2 = [] ∧ (d.byte x).1.utf8 = d.utf8) := by
  by_cases hascii : x < 0x80
  · have hfeed : (d.parser.feed x).1.state = .oscString ∧ (d.parser.feed x).2 = none := by
      unfold EscParser.feed
      rw [h]
      dsimp only
      unfold EscParser.oscString
      rw [if_neg (by simpa using hx)]
      dsimp only
      split
      · exact ⟨h, rfl⟩
      · exact ⟨h, rfl⟩
    have hbyte : d.byte x = d.ascii x := if_pos hascii
    rw [hbyte]
    unfold ascii
    dsimp only
    rw [hfeed.2]
    by_cases hneed : 0 < d.utf8.2.2
    · rw [if_pos hneed]
      exact ⟨hfeed.1, ⟨[_], rfl⟩, by simp, fun _ => .inl (by simp), fun h0 => by omega⟩
    · rw [if_neg hneed]
      exact ⟨hfeed.1, ⟨[], rfl⟩, by simp, fun h => absurd hascii (h.resolve_left hneed),
        fun _ _ => ⟨rfl, rfl⟩⟩
  · suffices hhigh : (d.byte x).1.parser = d.parser ∧ Prints (d.byte x).2 ∧
        (d.byte x).2.length ≤ 2 ∧ ((d.byte x).2 ≠ [] ∨ 0 < (d.byte x).1.utf8.2.2) by
      obtain ⟨hparser, hprints, hlength, hshows⟩ := hhigh
      refine ⟨?_, hprints, hlength, fun _ => hshows, fun _ hlt => absurd hlt hascii⟩
      unfold Collects
      rwa [hparser]
    have hle : 0x80 ≤ x.toNat := UInt8.le_iff_toNat_le.mp (UInt8.not_lt.mp hascii)
    rw [byte_of_le hle]
    by_cases hneed : d.utf8.2.2 = 0
    · rw [if_pos hneed]
      obtain ⟨hparser, hprints, hlength, hshows⟩ := lead_prints d x
      exact ⟨hparser, hprints, by omega, hshows⟩
    · rw [if_neg hneed]
      unfold continuation
      dsimp only
      split_ifs
      · exact ⟨rfl, ⟨[_], rfl⟩, by simp, .inl (by simp)⟩
      · exact ⟨rfl, ⟨[], rfl⟩, by simp, .inr (Nat.pos_of_ne_zero hneed)⟩
      · obtain ⟨hparser, ⟨cs, hcs⟩, hlength, -⟩ := lead_prints { d with utf8 := (0, 0, 0) } x
        refine ⟨hparser, ⟨replacementCharacter :: cs, ?_⟩, ?_, .inl (by simp)⟩
        · rw [hcs]
          rfl
        · simpa using hlength

theorem Collects.bytes {d : Decoder} (h : d.Collects) {payload : List UInt8}
    (hpayload : ∀ x ∈ payload, x ≠ 0x07 ∧ x ≠ 0x1B) :
    (d.bytes payload).1.Collects ∧ Prints (d.bytes payload).2 ∧
      (d.bytes payload).2.length ≤ 2 * payload.length ∧
      (0 < d.utf8.2.2 ∨ (∃ x ∈ payload, ¬ x < 0x80) →
        (d.bytes payload).2 ≠ [] ∨ 0 < (d.bytes payload).1.utf8.2.2) ∧
      (d.utf8.2.2 = 0 → (∀ x ∈ payload, x < 0x80) →
        (d.bytes payload).2 = [] ∧ (d.bytes payload).1.utf8 = d.utf8) := by
  induction payload generalizing d with
  | nil => exact ⟨h, ⟨[], rfl⟩, le_rfl, fun h => .inr (h.resolve_right (by simp)),
      fun _ _ => ⟨rfl, rfl⟩⟩
  | cons x payload ih =>
    obtain ⟨hc, ⟨cs, hcs⟩, hlength, hshows, hquiet⟩ := h.byte (hpayload x List.mem_cons_self)
    obtain ⟨hc', ⟨cs', hcs'⟩, hlength', hshows', hquiet'⟩ :=
      ih hc fun y hy => hpayload y (List.mem_cons_of_mem x hy)
    rw [bytes_cons]
    refine ⟨hc', ⟨cs ++ cs', by rw [hcs, hcs', List.map_append]⟩, ?_, fun hany => ?_,
      fun hneed hall => ?_⟩
    · rw [List.length_append, List.length_cons]
      omega
    · by_cases hrest : 0 < (d.byte x).1.utf8.2.2 ∨ ∃ y ∈ payload, ¬ y < 0x80
      · exact (hshows' hrest).imp_left fun hne => List.append_ne_nil_of_right_ne_nil _ hne
      · obtain ⟨hclosed, hplain⟩ := not_or.mp hrest
        refine .inl (List.append_ne_nil_of_left_ne_nil ((hshows ?_).resolve_right hclosed) _)
        refine hany.imp_right ?_
        rintro ⟨y, hy, hyx⟩
        rcases List.mem_cons.mp hy with rfl | hy
        · exact hyx
        · exact absurd ⟨y, hy, hyx⟩ hplain
    · obtain ⟨hnil, hutf8⟩ := hquiet hneed (hall x List.mem_cons_self)
      obtain ⟨hnil', hutf8'⟩ := hquiet' (by rw [hutf8]; exact hneed) fun y hy =>
        hall y (List.mem_cons_of_mem x hy)
      exact ⟨by rw [hnil, hnil']; rfl, hutf8'.trans hutf8⟩

end Decoder

namespace Terminal

/-- The bytes that end a string. -/
inductive Terminator
  | bel
  | st

def Terminator.bytes : Terminator → List UInt8
  | .bel => [0x07]
  | .st => [0x1B, 0x5C]

/-- What the bytes after the end of the string give. -/
def Terminator.rest : Terminator → List Action
  | .bel => []
  | .st => [.print (charOf 0x5C)]

/-- The bytes of an operating system command. -/
def oscBytes (payload : List UInt8) (terminator : Terminator) : List UInt8 :=
  [0x1B, 0x5D] ++ payload ++ terminator.bytes

/-- The command changes neither the grids nor the cursor, and the decoder is idle again. -/
def Invisible (t : Terminal) (payload : List UInt8) (terminator : Terminator) : Prop :=
  ∃ t', t.feed (oscBytes payload terminator) = some t' ∧ t'.buffer.primary = t.buffer.primary ∧
    t'.buffer.alternate = t.buffer.alternate ∧ t'.cursor = t.cursor ∧ t'.decoder.Idle

end Terminal

namespace Decoder

open Terminal (replacementCharacter Terminator)

theorem bytes_oscStart {d : Decoder} (h : d.Idle) :
    ∃ d', d.bytes [0x1B, 0x5D] = (d', []) ∧ d'.Collects ∧ d'.utf8 = d.utf8 := by
  obtain ⟨⟨state, paramsBuf, intermediates, isPrivate, oscBuf⟩, acc, seen, need⟩ := d
  obtain ⟨rfl, rfl⟩ := h
  exact ⟨_, rfl, rfl, rfl⟩

/-- What the terminator gives: the end of a sequence, the string, and a backslash. -/
theorem Collects.terminator {d : Decoder} (h : d.Collects) (terminator : Terminator) :
    ∃ d' s, d'.Idle ∧ d.bytes terminator.bytes =
      (d', (if 0 < d.utf8.2.2 then [.print replacementCharacter] else []) ++
        .oscDispatch s :: terminator.rest) := by
  obtain ⟨⟨state, paramsBuf, intermediates, isPrivate, oscBuf⟩, acc, seen, need⟩ := d
  obtain rfl : state = .oscString := h
  cases need with
  | zero =>
    cases terminator with
    | bel => exact ⟨_, _, ⟨rfl, rfl⟩, rfl⟩
    | st => exact ⟨_, _, ⟨rfl, rfl⟩, rfl⟩
  | succ need =>
    cases terminator with
    | bel => exact ⟨_, _, ⟨rfl, rfl⟩, rfl⟩
    | st => exact ⟨_, _, ⟨rfl, rfl⟩, rfl⟩

theorem bytes_osc {d : Decoder} (h : d.Idle) {payload : List UInt8}
    (hpayload : ∀ x ∈ payload, x ≠ 0x07 ∧ x ≠ 0x1B) (terminator : Terminator) :
    ∃ d' cs s, d'.Idle ∧ cs.length ≤ 2 * payload.length + 1 ∧ (cs = [] ↔ ∀ x ∈ payload, x < 0x80) ∧
      d.bytes (Terminal.oscBytes payload terminator) =
        (d', cs.map .print ++ .oscDispatch s :: terminator.rest) := by
  obtain ⟨d₁, hstart, hcollects, hutf8⟩ := bytes_oscStart h
  obtain ⟨hcollects', ⟨cs, hcs⟩, hlength, hshows, hquiet⟩ := hcollects.bytes hpayload
  obtain ⟨d₂, s, hidle, hend⟩ := hcollects'.terminator terminator
  have hopen : d₁.utf8.2.2 = 0 := by
    rw [hutf8]
    exact h.utf8
  have hcs' : (d₁.bytes payload).2.length = cs.length := by rw [hcs, List.length_map]
  refine ⟨d₂, cs ++ if 0 < (d₁.bytes payload).1.utf8.2.2 then [replacementCharacter] else [], s,
    hidle, ?_, ⟨fun hnil x hx => ?_, fun hall => ?_⟩, ?_⟩
  · rw [List.length_append]
    split <;> simp <;> omega
  · by_contra hhigh
    obtain ⟨rfl, hnil⟩ := List.append_eq_nil_iff.mp hnil
    rcases hshows (.inr ⟨x, hx, hhigh⟩) with hne | hpos
    · exact hne hcs
    · rw [if_pos hpos] at hnil
      cases hnil
  · obtain ⟨hnil, hsame⟩ := hquiet hopen hall
    rw [hsame, hopen, if_neg (Nat.lt_irrefl 0), List.append_nil]
    exact List.map_eq_nil_iff.mp (hcs.symm.trans hnil)
  · unfold Terminal.oscBytes
    rw [List.append_assoc, bytes_append, hstart, bytes_append, hend, hcs]
    dsimp only
    rw [List.nil_append, List.map_append, List.append_assoc]
    split <;> rfl

end Decoder

namespace Terminal

variable {t t' : Terminal}

/-- A print with room to the right moves the cursor by a column. -/
theorem cursor_of_print {ch : Char} (h : t.print ch = some t')
    (hwrap : t.cursor.wrapPending = false) (hcol : t.cursor.col + 1 < t.cursor.maxCols) :
    t'.cursor = { t.cursor with col := t.cursor.col + 1 } := by
  have hnowrap : t.wrap = some t := by
    unfold wrap
    rw [hwrap]
    rfl
  unfold print at h
  rw [hnowrap] at h
  obtain ⟨t₁, hput, hlast⟩ : ∃ t₁, t.onBuffer _ = some t₁ ∧ _ := Option.bind_eq_some_iff.mp h
  obtain ⟨b, -, hb⟩ := Option.bind_eq_some_iff.mp hput
  cases hb
  cases hlast
  exact if_neg (Nat.not_le.mpr hcol)

/-- Prints and strings with room to the right never move the cursor back. -/
theorem col_of_execute {actions : List Action}
    (hactions : ∀ a ∈ actions, (∃ ch, a = .print ch) ∨ ∃ s, a = .oscDispatch s)
    (h : t.execute actions = some t') (hwrap : t.cursor.wrapPending = false)
    (hcol : t.cursor.col + actions.length < t.cursor.maxCols) :
    t.cursor.col ≤ t'.cursor.col ∧
      ((∃ ch, .print ch ∈ actions) → t.cursor.col < t'.cursor.col) := by
  induction actions generalizing t with
  | nil =>
    cases h
    exact ⟨le_rfl, fun ⟨_, hch⟩ => by cases hch⟩
  | cons action actions ih =>
    obtain ⟨t₁, hfirst, hrest⟩ := Option.bind_eq_some_iff.mp h
    rw [List.length_cons] at hcol
    have hactions' := fun a ha => hactions a (List.mem_cons_of_mem action ha)
    rcases hactions action List.mem_cons_self with ⟨ch, rfl⟩ | ⟨s, rfl⟩
    · have hcursor := cursor_of_print hfirst hwrap (by omega)
      obtain ⟨hle, -⟩ := ih hactions' hrest (by rw [hcursor]; exact hwrap)
        (by rw [hcursor]; dsimp only; omega)
      rw [hcursor] at hle
      dsimp only at hle
      exact ⟨by omega, fun _ => by omega⟩
    · cases hfirst
      obtain ⟨hle, hlt⟩ := ih hactions' hrest hwrap (by dsimp only [executeOsc]; omega)
      refine ⟨hle, fun ⟨ch, hch⟩ => hlt ⟨ch, ?_⟩⟩
      simpa using hch

/-- **Operating system commands.**  A command with some payload and terminator is invisible on
every idle terminal if and only if the payload is ASCII and the terminator is the bell. -/
theorem invisible_iff {payload : List UInt8} (hpayload : ∀ x ∈ payload, x ≠ 0x07 ∧ x ≠ 0x1B)
    (terminator : Terminator) :
    (∀ t : Terminal, t.decoder.Idle → t.Invisible payload terminator) ↔
      (∀ x ∈ payload, x < 0x80) ∧ terminator = .bel := by
  constructor
  · intro h
    -- a screen that is wide enough
    obtain ⟨t', hfeed, -, -, hcursor, -⟩ :=
      h (Terminal.new 1 (2 * payload.length + 5)) ⟨rfl, rfl⟩
    obtain ⟨d', cs, s, -, hlength, hquiet, hbytes⟩ := Decoder.bytes_osc
      (d := (Terminal.new 1 (2 * payload.length + 5)).decoder) ⟨rfl, rfl⟩ hpayload terminator
    rw [feed_eq, hbytes] at hfeed
    obtain ⟨t₁, hexecute, rfl⟩ := Option.map_eq_some_iff.mp hfeed
    have hroom : (Terminal.new 1 (2 * payload.length + 5)).cursor.col + (cs.map Action.print ++
        Action.oscDispatch s :: terminator.rest).length < 2 * payload.length + 5 := by
      change 0 + _ < _
      cases terminator <;> simp [Terminator.rest] <;> omega
    have hkinds : ∀ a ∈ cs.map Action.print ++ Action.oscDispatch s :: terminator.rest,
        (∃ ch, a = .print ch) ∨ ∃ s, a = .oscDispatch s := by
      intro a ha
      cases terminator <;> simp [Terminator.rest] at ha <;> grind
    obtain ⟨-, hmoved⟩ := col_of_execute hkinds hexecute rfl hroom
    have hnone : ¬ ∃ ch, Action.print ch ∈ cs.map .print ++ .oscDispatch s :: terminator.rest := by
      intro hprint
      have hlt := hmoved hprint
      rw [show t₁.cursor = (Terminal.new 1 (2 * payload.length + 5)).cursor from hcursor] at hlt
      exact Nat.lt_irrefl _ hlt
    constructor
    · refine hquiet.mp (List.eq_nil_iff_forall_not_mem.mpr fun c hc => hnone ⟨c, ?_⟩)
      simp [hc]
    · cases terminator with
      | bel => rfl
      | st => exact absurd ⟨charOf 0x5C, by simp [Terminator.rest]⟩ hnone
  · rintro ⟨hall, rfl⟩ t hidle
    obtain ⟨d', cs, s, hidle', -, hquiet, hbytes⟩ := Decoder.bytes_osc hidle hpayload .bel
    obtain rfl := hquiet.mpr hall
    refine ⟨(t.executeOsc s).withDecoder d', ?_, rfl, rfl, rfl, hidle'⟩
    rw [feed_eq, hbytes]
    rfl

/-- A title. -/
theorem invisible_iff_title :
    (∀ t : Terminal, t.decoder.Idle → t.Invisible [0x30, 0x3B, 0x61] .bel) ↔
      (∀ x ∈ [(0x30 : UInt8), 0x3B, 0x61], x < 0x80) ∧ Terminator.bel = .bel :=
  invisible_iff (by simp) .bel

/-- The backslash of the longer terminator is printed, and so is a letter of two bytes. -/
theorem not_invisible :
    ¬ (Terminal.new 1 5).Invisible [] .st ∧ ¬ (Terminal.new 1 5).Invisible [0xC3, 0xA9] .bel := by
  have hcol : ((Terminal.new 1 5).feed (oscBytes [] .st)).map (·.cursor.col) = some 1 ∧
      ((Terminal.new 1 5).feed (oscBytes [0xC3, 0xA9] .bel)).map (·.cursor.col) = some 1 := by
    decide +kernel
  constructor
  · rintro ⟨t', hfeed, -, -, hcursor, -⟩
    rw [hfeed, Option.map_some, hcursor] at hcol
    cases hcol.1
  · rintro ⟨t', hfeed, -, -, hcursor, -⟩
    rw [hfeed, Option.map_some, hcursor] at hcol
    cases hcol.2

end Terminal

end RacOS.RacTerm
