import RacOS.Shell.Words

/-!
# Double quotes

A text between double quotes is unescaped by the lexer, and what is left is looked at again by the
expansion: a dollar or a backslash that was escaped is taken for one that was not.  To see that the
text changes wherever that happens, it is expanded in an environment where every parameter is
shorter than what it is expanded from.
-/

namespace RacOS.Shell

variable {c : Char}

/-! ## Escaped text -/

/-- The characters that are escaped between double quotes. -/
def isEscaped (c : Char) : Bool := c ∈ ['\\', '"', '$', '`']

/-- The text with a backslash before each of these characters. -/
def escapeText (s : Text) : Text := s.flatMap fun c => if isEscaped c then ['\\', c] else [c]

theorem lexDoubleQuoted_escapeText (s rest : Text) :
    lexDoubleQuoted (escapeText s ++ '"' :: rest) = .ok (s, rest) := by
  induction s with
  | nil => simp [escapeText, lexDoubleQuoted]
  | cons c s ih =>
    rw [escapeText, List.flatMap_cons, ← escapeText]
    split
    · rename_i hc
      have hmem : c ∈ ['\\', '"', '$', '`'] := of_decide_eq_true hc
      rw [List.cons_append, List.singleton_append, List.cons_append, List.cons_append,
        lexDoubleQuoted, if_pos hmem, ih]
      rfl
    · rename_i hc
      have hmem : c ∉ ['\\', '"', '$', '`'] := of_decide_eq_false (Bool.eq_false_of_not_eq_true hc)
      simp only [List.mem_cons, List.not_mem_nil, or_false, not_or] at hmem
      obtain ⟨hescape, hquote, -, -⟩ := hmem
      rw [List.singleton_append, List.cons_append, lexDoubleQuoted, if_neg hquote, ih]
      · rfl
      · exact fun h => absurd h hescape
      · exact fun _ _ h => absurd h hescape

/-- The characters that start a parameter after a dollar. -/
def startsParameter (c : Char) : Bool :=
  c ∈ ['{', '?', '$', '#', '@', '*', '!'] || c.isDigit || isNameChar c

/-- A dollar before a parameter, or a backslash before a character that it escapes. -/
def touches (a b : Char) : Bool :=
  (a = '$' && startsParameter b) || (a = '\\' && (isEscaped b || b = 'n'))

/-- No dollar stands before a parameter, and no backslash before a character that it escapes. -/
def Untouched (s : Text) : Prop := ∀ pair ∈ s.zip s.tail, touches pair.1 pair.2 = false

instance (s : Text) : Decidable (Untouched s) := List.decidableBAll _ (s.zip s.tail)

theorem untouched_cons_cons {a b : Char} {s : Text} :
    Untouched (a :: b :: s) ↔ touches a b = false ∧ Untouched (b :: s) :=
  List.forall_mem_cons

theorem touches_of_ne {a b : Char} (hdollar : a ≠ '$') (hescape : a ≠ '\\') :
    touches a b = false := by
  simp [touches, hdollar, hescape]

theorem untouched_cons {a : Char} {s : Text} (hdollar : a ≠ '$') (hescape : a ≠ '\\') :
    Untouched (a :: s) ↔ Untouched s := by
  cases s with
  | nil => exact iff_of_true (by simp [Untouched]) (by simp [Untouched])
  | cons b s => rw [untouched_cons_cons, and_iff_right (touches_of_ne hdollar hescape)]

/-- An environment in which no parameter takes more than one character, and a tilde stands for
itself. -/
def quietEnv : Env := { Env.new 1 with vars := [("HOME".toList, ['~'])], arg0 := [] }

theorem expandTilde_quiet (text : Text) : expandTilde quietEnv text = text := by
  have hhome : (quietEnv.get "HOME".toList).getD ['/'] = ['~'] := by decide
  unfold expandTilde
  rw [hhome]
  dsimp only
  split <;> rfl

theorem expandVariable_quiet (name out : Text) :
    ∃ v ∈ [[], ['0'], ['1'], ['~']], expandVariable name quietEnv out = out ++ v := by
  unfold expandVariable
  split
  case h_7 =>
    split
    · refine ⟨[], by decide, ?_⟩
      rw [List.append_nil]
      split
      · rfl
      · exact List.append_nil out
    · by_cases hname : ['H', 'O', 'M', 'E'] = name
      · exact ⟨['~'], by decide, by simp [quietEnv, Env.get, hname]⟩
      · exact ⟨[], by decide, by simp [quietEnv, Env.get, hname]⟩
  all_goals exact ⟨_, by decide, rfl⟩

theorem length_expandVariable (name out : Text) :
    (expandVariable name quietEnv out).length ≤ out.length + 1 := by
  obtain ⟨v, hv, heq⟩ := expandVariable_quiet name out
  have hlength : ∀ v ∈ [[], ['0'], ['1'], ['~']], v.length ≤ 1 := by decide
  rw [heq, List.length_append]
  exact Nat.add_le_add_left (hlength v hv) _

theorem length_expandParamBrace {content out out' : Text}
    (h : expandParamBrace content quietEnv out = some out') :
    out'.length ≤ out.length + content.length + 1 := by
  unfold expandParamBrace at h
  split at h
  · rename_i rest
    obtain ⟨v, hv, heq⟩ := expandVariable_quiet rest []
    have hdigit : ∀ v ∈ [[], ['0'], ['1'], ['~']],
        (formatI32 (Int32.ofNat (asBytes v).length)).length ≤ 1 := by decide
    rw [heq, List.nil_append] at h
    have hle := hdigit v hv
    rw [← Option.some.inj h, List.length_append]
    omega
  · have hwhole := length_expandVariable content out
    have hname := length_expandVariable (content.takeWhile (· ≠ ':')) []
    dsimp only at h
    split at h
    · rw [← Option.some.inj h]
      omega
    · rename_i op word hword
      have hlength := congrArg List.length hword
      rw [List.length_drop, List.length_cons] at hlength
      rw [List.length_nil] at hname
      by_cases hop : 128 ≤ op.toNat
      · rw [if_pos hop] at h
        cases h
      rw [if_neg hop] at h
      split at h
      all_goals rw [← Option.some.inj h]
      · rw [List.length_append]
        split_ifs <;> omega
      · rw [List.length_append]
        split_ifs
        · rw [List.length_nil]
          omega
        · omega
      · rw [List.length_append]
        omega
      · omega

theorem length_ofBytes (bytes : Text) : (ofBytes bytes).length ≤ bytes.length := by
  unfold ofBytes
  cases hdecode : Utf8.decode (bytes.map fun c => UInt8.ofNat c.toNat) with
  | none => exact Nat.zero_le _
  | some text =>
    have hlength := congrArg List.length (Utf8.decode_eq_some_iff.mp hdecode)
    have hle := (ascii_of_length text).1
    rw [asBytes, List.length_map, ← hlength, List.length_map] at hle
    exact hle

/-- The output has grown by at most the text, and by less if something of it is looked at a second
time. -/
def Shortens (s out out' : Text) : Prop :=
  out'.length ≤ out.length + s.length ∧ (¬ Untouched s → out'.length < out.length + s.length)

variable {s rest out out' : Text}

theorem Shortens.of_lt (h : out'.length < out.length + s.length) : Shortens s out out' :=
  ⟨h.le, fun _ => h⟩

/-- A part of the text that goes into the output as it is. -/
theorem Shortens.copied {part : Text} (h : Shortens rest (out ++ part) out')
    (hpart : Untouched rest → Untouched (part ++ rest)) : Shortens (part ++ rest) out out' := by
  obtain ⟨hle, hlt⟩ := h
  rw [List.length_append, Nat.add_assoc, ← List.length_append] at hle hlt
  exact ⟨hle, fun hs => hlt fun hrest => hs (hpart hrest)⟩

theorem Shortens.unescaped {a b : Char} (h : Shortens rest (out ++ [c]) out') :
    Shortens (a :: b :: rest) out out' := by
  have hle := h.1
  rw [List.length_append, List.length_singleton] at hle
  refine .of_lt ?_
  simp only [List.length_cons]
  omega

/-- A text of which something is looked at a second time gets shorter in that environment. -/
theorem dollarLoop_shortens {rounds : ℕ} (hrounds : s.length < rounds)
    (h : dollarLoop quietEnv rounds s out = some out') : Shortens s out out' := by
  fun_induction dollarLoop quietEnv rounds s out with
  | case1 => exact absurd hrounds (Nat.not_lt_zero _)
  | case2 =>
    obtain rfl := Option.some.inj h
    exact ⟨le_rfl, fun hs => absurd (by simp [Untouched]) hs⟩
  | case3 =>
    obtain rfl := Option.some.inj h
    exact ⟨by simp, fun hs => absurd (by simp [Untouched]) hs⟩
  | case4 rounds rest out ih =>
    obtain ⟨out₁, hbrace, h⟩ := Option.bind_eq_some_iff.mp h
    have hparam := length_expandParamBrace hbrace
    have hcontent := length_ofBytes (rest.takeWhile (· ≠ '}'))
    have hsplit :=
      congrArg List.length (List.takeWhile_append_dropWhile (p := (· ≠ '}')) (l := rest))
    rw [List.length_append] at hsplit
    simp only [List.length_cons] at hrounds
    have hrest := (ih out₁ (by rw [List.length_drop]; omega) h).1
    rw [List.length_drop] at hrest
    refine .of_lt ?_
    simp only [List.length_cons]
    omega
  | case5 rounds c rest out hbrace hc ih =>
    have hvariable := length_expandVariable [c] out
    simp only [List.length_cons] at hrounds
    have hrest := (ih (by omega) h).1
    refine .of_lt ?_
    simp only [List.length_cons]
    omega
  | case6 rounds c rest out hbrace hc name ih =>
    have hsplit := congrArg List.length
      (List.takeWhile_append_dropWhile (p := isNameChar) (l := c :: rest))
    rw [List.length_append] at hsplit
    simp only [List.length_cons] at hrounds hsplit
    have hrest := ih (by omega) h
    by_cases hempty : name = []
    · have hname : isNameChar c = false := by
        refine Bool.eq_false_of_not_eq_true fun hc => ?_
        rw [show name = _ from List.takeWhile_cons_of_pos hc] at hempty
        cases hempty
      rw [if_pos hempty, List.dropWhile_cons_of_neg (by simp [hname])] at hrest
      have hstarts : touches '$' c = false := by
        simp only [List.mem_cons, List.not_mem_nil, or_false, not_or] at hc
        simp [touches, startsParameter, hbrace, hc, hname]
      exact hrest.copied fun hrest => untouched_cons_cons.mpr ⟨hstarts, hrest⟩
    · have hvariable := length_expandVariable name out
      have hpos := List.length_pos_iff.mpr hempty
      have hname : (List.takeWhile isNameChar (c :: rest)).length = name.length := rfl
      rw [if_neg hempty] at hrest
      refine .of_lt ?_
      have hle := hrest.1
      simp only [List.length_cons]
      omega
  | case7 rounds c rest out ih =>
    simp only [List.length_cons] at hrounds
    have hrest := ih (by omega) h
    split_ifs at hrest with hescaped hnewline
    · exact hrest.unescaped
    · exact hrest.unescaped
    · have htouches : touches '\\' c = false := by
        have hmem : isEscaped c = false := decide_eq_false hescaped
        simp [touches, hmem, hnewline]
      simp only [List.mem_cons, List.not_mem_nil, or_false, not_or] at hescaped
      exact hrest.copied fun hrest => untouched_cons_cons.mpr
        ⟨htouches, (untouched_cons hescaped.2.2.1 hescaped.1).mpr hrest⟩
  | case8 rounds c rest out hlast hdollar hescape ih =>
    refine (ih (Nat.lt_of_succ_lt_succ hrounds) h).copied fun hrest => ?_
    cases rest with
    | nil => simp [Untouched]
    | cons d rest =>
      exact (untouched_cons (fun hc => hdollar d rest hc rfl)
        (fun hc => hescape d rest hc rfl)).mpr hrest

theorem dollarLoop_untouched (env : Env) (hs : Untouched s) {rounds : ℕ}
    (hrounds : s.length < rounds) (out : Text) : dollarLoop env rounds s out = some (out ++ s) := by
  fun_induction dollarLoop env rounds s out with
  | case1 => exact absurd hrounds (Nat.not_lt_zero _)
  | case2 => rw [List.append_nil]
  | case3 => rfl
  | case4 rounds rest out ih => exact absurd (untouched_cons_cons.mp hs).1 (by decide)
  | case5 rounds c rest out hbrace hc ih =>
    have hstarts : startsParameter c = true := by
      rcases hc with hc | hc
      · have hmem : c ∈ ['{', '?', '$', '#', '@', '*', '!'] := List.mem_cons_of_mem _ hc
        simp [startsParameter, hmem]
      · simp [startsParameter, hc]
    exact absurd (untouched_cons_cons.mp hs).1 (by simp [touches, hstarts])
  | case6 rounds c rest out hbrace hc name ih =>
    have hname : isNameChar c = false := by
      refine Bool.eq_false_of_not_eq_true fun h => ?_
      exact absurd (untouched_cons_cons.mp hs).1 (by simp [touches, startsParameter, h])
    have hempty : name = [] := List.takeWhile_cons_of_neg (by simp [hname])
    rw [if_pos hempty, List.dropWhile_cons_of_neg (by simp [hname])] at ih
    rw [if_pos hempty, List.dropWhile_cons_of_neg (by simp [hname]),
      ih (untouched_cons_cons.mp hs).2 (Nat.lt_of_succ_lt_succ hrounds), List.append_assoc,
      List.singleton_append]
  | case7 rounds c rest out ih =>
    obtain ⟨hfirst, hs⟩ := untouched_cons_cons.mp hs
    have hplain : isEscaped c = false ∧ c ≠ 'n' := by simpa [touches] using hfirst
    have hmem : c ∉ ['\\', '"', '$', '`'] := of_decide_eq_false hplain.1
    rw [if_neg hmem, if_neg hplain.2] at ih
    simp only [List.mem_cons, List.not_mem_nil, or_false, not_or] at hmem
    have hlength : rest.length < rounds := by
      simp only [List.length_cons] at hrounds
      omega
    rw [if_neg (of_decide_eq_false hplain.1), if_neg hplain.2,
      ih ((untouched_cons hmem.2.2.1 hmem.1).mp hs) hlength, List.append_assoc]
    rfl
  | case8 rounds c rest out _ hdollar hescape ih =>
    have hrest : Untouched rest := by
      cases rest with
      | nil => simp [Untouched]
      | cons d rest => exact (untouched_cons_cons.mp hs).2
    rw [ih hrest (Nat.lt_of_succ_lt_succ hrounds), List.append_assoc, List.singleton_append]

theorem readWord_doubleQuoted (hascii : Ascii s) :
    readWord ('"' :: (escapeText s ++ ['"'])) = some ⟨[.doubleQuoted s]⟩ := by
  have hsource : Ascii ('"' :: (escapeText s ++ ['"'])) := by
    intro c hc
    rcases List.mem_cons.mp hc with rfl | hc
    · decide
    rcases List.mem_append.mp hc with hc | hc
    · obtain ⟨d, hd, hc⟩ := List.mem_flatMap.mp hc
      split at hc
      · rcases List.mem_pair.mp hc with rfl | rfl
        · decide
        · exact hascii _ hd
      · rw [List.mem_singleton.mp hc]
        exact hascii d hd
    · rw [List.mem_singleton.mp hc]
      decide
  have hquote : '"' ∉ [' ', '\t', '\r'] := by decide
  have hlex : lexToken '"' ((escapeText s ++ ['"']) ++ []) = .ok (some (.doubleQuoted s), []) := by
    change (lexDoubleQuoted ((escapeText s ++ ['"']) ++ []) >>= _) = _
    rw [List.append_nil, lexDoubleQuoted_escapeText]
    rfl
  have htoken := Lexer.Lexed.token hquote hlex (.nil (0 + _))
  rw [List.append_nil, ← asBytes_of_ascii hsource] at htoken
  exact readWord_of_adjacent htoken rfl (.nil _)

/-- A text that is escaped between double quotes is one field in every environment if and only if no
dollar or backslash in it is looked at a second time, its braces are no list, and there is no tilde
to expand. -/
theorem doubleQuoted_expands_iff {s : Text} (hascii : Ascii s) :
    (∀ world env, ∃ word, readWord ('"' :: (escapeText s ++ ['"'])) = some word ∧
        expandWordList world word env = some [s]) ↔
      Untouched s ∧ LiteralBraces s ∧ NoTilde s := by
  have hcomplete : ∀ env, completeWord ⟨[.doubleQuoted s]⟩ env = some s := fun _ => rfl
  have hexpand : ∀ world env, expandWord world ⟨[.doubleQuoted s]⟩ env =
      (dollarLoop env (s.length + 1) s []).map (expandTilde env) := by
    intro world env
    change (expandTilde env) <$> (expandDollarInString s env [] >>= pure) = _
    rw [expandDollarInString, asBytes_of_ascii hascii, bind_pure]
    rfl
  have hfields : ∀ world env, LiteralBraces s → expandWordList world ⟨[.doubleQuoted s]⟩ env =
      ((dollarLoop env (s.length + 1) s []).map (expandTilde env)).map ([·]) := by
    intro world env hbraces
    rw [expandWordList_of_literalBraces (hcomplete env) rfl rfl hbraces, hexpand]
  rw [readWord_doubleQuoted hascii]
  constructor
  · intro h
    obtain ⟨word, hword, hfield⟩ := h emptyWorld quietEnv
    obtain rfl : word = ⟨[.doubleQuoted s]⟩ := by simpa using hword.symm
    have hbraces := literalBraces_of_field (hcomplete quietEnv) rfl hfield
    rw [hfields _ _ hbraces, Option.map_map, Option.map_eq_some_iff] at hfield
    obtain ⟨out, hout, hfield⟩ := hfield
    have hsame : out = s := by simpa [expandTilde_quiet] using hfield
    have huntouched : Untouched s := by
      by_contra hs
      have hlt := (dollarLoop_shortens (Nat.lt_succ_self _) hout).2 hs
      rw [hsame, List.length_nil, Nat.zero_add] at hlt
      exact Nat.lt_irrefl _ hlt
    have htildes : ∀ env, expandTilde env s = s := by
      intro env
      obtain ⟨word, hword, hfield⟩ := h emptyWorld env
      obtain rfl : word = ⟨[.doubleQuoted s]⟩ := by simpa using hword.symm
      rw [hfields _ _ hbraces, dollarLoop_untouched env huntouched (Nat.lt_succ_self _)] at hfield
      simpa using hfield
    exact ⟨huntouched, hbraces, (noTilde_of_forall htildes).1⟩
  · rintro ⟨hs, hbraces, htilde⟩ world env
    refine ⟨_, rfl, ?_⟩
    rw [hfields world env hbraces, dollarLoop_untouched env hs (Nat.lt_succ_self _),
      Option.map_some, List.nil_append, expandTilde_of_noTilde htilde]
    rfl

theorem doubleQuoted_expands_iff_price :
    Ascii "5$ \\ \"x\"".toList ∧ ∀ world env,
      ∃ word, readWord ('"' :: (escapeText "5$ \\ \"x\"".toList ++ ['"'])) = some word ∧
        expandWordList world word env = some ["5$ \\ \"x\"".toList] :=
  ⟨by decide, (doubleQuoted_expands_iff (by decide)).mpr
    ⟨by decide, literalBraces_of_notMem (by decide), by decide⟩⟩

/-- An escaped dollar is expanded, and a doubled backslash is unescaped again. -/
theorem doubleQuoted_wrong :
    (∃ word, readWord ('"' :: (escapeText "$x".toList ++ ['"'])) = some word ∧
      expandWordList emptyWorld word (.new 1) = some [[]]) ∧
    (∃ word, readWord ('"' :: (escapeText "\\n".toList ++ ['"'])) = some word ∧
      expandWordList emptyWorld word (.new 1) = some ["\n".toList]) :=
  ⟨⟨_, readWord_doubleQuoted (by decide), by decide⟩,
    ⟨_, readWord_doubleQuoted (by decide), by decide⟩⟩

end RacOS.Shell
