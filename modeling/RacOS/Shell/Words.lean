import RacOS.Shell.Braces
import RacOS.Shell.Parser

/-!
# Words with quotes and wildcards

What becomes of a word on its way through the lexer, the parser and the expansion.  The lexer goes
over bytes, drops quotes inside a word and unescapes double-quoted text; the expansion looks for
braces, a tilde and dollars in what is left.  No token stands for a wildcard, so that no word of a
source is a pattern.
-/

namespace RacOS.Shell

/-! ## Ordinary characters -/

/-- Characters that neither end a word nor quote. -/
def Ordinary (c : Char) : Prop := endsWord c = false ∧ c ∉ ['\\', '\'', '"', '`']

instance (c : Char) : Decidable (Ordinary c) :=
  inferInstanceAs (Decidable (endsWord c = false ∧ c ∉ ['\\', '\'', '"', '`']))

/-- Neither a keyword nor a brace. -/
def Unreserved (w : Text) : Prop := w ∉ ['{'] :: ['}'] :: keywords.map Prod.fst

instance (w : Text) : Decidable (Unreserved w) :=
  inferInstanceAs (Decidable (w ∉ ['{'] :: ['}'] :: keywords.map Prod.fst))

/-- No home directory is put in front. -/
def NoTilde (w : Text) : Prop := w ≠ ['~'] ∧ ¬ ['~', '/'] <+: w

instance (w : Text) : Decidable (NoTilde w) :=
  inferInstanceAs (Decidable (w ≠ ['~'] ∧ ¬ ['~', '/'] <+: w))

variable {w rest s : Text}

theorem ordinary_of_high {c : Char} (hc : 128 ≤ c.toNat) : Ordinary c := by
  have hlow : ∀ d ∈ [' ', '\t', '\n', '\r', '|', '&', ';', '(', ')', '<', '>', '#', '$', '\\',
      '\'', '"', '`'], d.toNat < 128 := by decide
  refine ⟨decide_eq_false fun hmem => ?_, fun hmem => ?_⟩
  all_goals
    have := hlow c (by simp at hmem ⊢; tauto)
    omega

theorem ordinary_asBytes (hw : ∀ c ∈ w, Ordinary c) : ∀ c ∈ asBytes w, Ordinary c := by
  intro c hc
  rcases Nat.lt_or_ge c.toNat 128 with hlow | hhigh
  · exact hw c ((mem_asBytes_iff hlow).mp hc)
  · exact ordinary_of_high hhigh

theorem lexWordRest_nil (n : ℕ) : lexWordRest n [] = ([], []) := by
  cases n <;> rfl

theorem lexWordRest_append (hw : ∀ c ∈ w, Ordinary c) (n : ℕ) (rest : Text) :
    lexWordRest (w.length + n) (w ++ rest) =
      (w ++ (lexWordRest n rest).1, (lexWordRest n rest).2) := by
  induction w with
  | nil => simp
  | cons c w ih =>
    obtain ⟨⟨hend, hquote⟩, hw⟩ := List.forall_mem_cons.mp hw
    simp only [List.mem_cons, List.not_mem_nil, or_false, not_or] at hquote
    obtain ⟨hescape, hsingle, hdouble, -⟩ := hquote
    rw [List.length_cons, Nat.succ_add, List.cons_append, lexWordRest,
      if_neg (by rw [hend]; decide), if_neg hescape, if_neg hsingle, if_neg hdouble, ih hw,
      List.cons_append]

theorem lexSingleQuoted_append (hs : '\'' ∉ s) (rest : Text) :
    lexSingleQuoted (s ++ '\'' :: rest) = .ok (s, rest) := by
  induction s with
  | nil => rfl
  | cons c s ih =>
    rw [List.mem_cons, not_or] at hs
    rw [List.cons_append, lexSingleQuoted, if_neg (Ne.symm hs.1), ih hs.2]
    rfl

theorem lexWordRest_quoted (hs : '\'' ∉ s) (n : ℕ) (rest : Text) :
    lexWordRest (n + 1) ('\'' :: (s ++ '\'' :: rest)) =
      (s ++ (lexWordRest n rest).1, (lexWordRest n rest).2) := by
  rw [lexWordRest, if_neg (by decide), if_neg (by decide), if_pos rfl, lexSingleQuoted_append hs]

/-- No redirection follows the digits that a run of ordinary characters starts with. -/
theorem ioNumberAhead_append (hw : ∀ c ∈ w, Ordinary c) (rest : Text)
    (hrest : ∀ c ∈ rest.head?, c = ' ' ∨ c = '\'') : ioNumberAhead (w ++ rest) = false := by
  have hafter : ((w ++ rest).dropWhile Char.isDigit).head?.any (· ∈ ['<', '>']) = false := by
    induction w with
    | nil =>
      cases rest with
      | nil => rfl
      | cons c rest => rcases hrest c rfl with rfl | rfl <;> rfl
    | cons c w ih =>
      obtain ⟨hc, hw⟩ := List.forall_mem_cons.mp hw
      rw [List.cons_append, List.dropWhile_cons]
      split
      · exact ih hw
      · rw [List.head?_cons, Option.any_some, decide_eq_false_iff_not]
        intro hredirect
        have hends : endsWord c = true := by
          rcases List.mem_pair.mp hredirect with rfl | rfl <;> rfl
        exact Bool.noConfusion (hends.symm.trans hc.1)
  rw [ioNumberAhead, hafter, Bool.and_false]

variable {c : Char}

theorem lexToken_ordinary (hc : Ordinary c) {rest : Text}
    (hnumber : ioNumberAhead (c :: rest) = false) :
    lexToken c rest = .ok (some (lexWord c rest).1, (lexWord c rest).2) := by
  unfold lexToken
  split
  all_goals first | exact absurd hc (by decide) | skip
  rw [hnumber]
  rfl

theorem not_blank_of_ordinary (hc : Ordinary c) : c ∉ [' ', '\t', '\r'] := by
  intro h
  have hends : endsWord c = true := by
    simp only [List.mem_cons, List.not_mem_nil, or_false] at h
    rcases h with rfl | rfl | rfl <;> rfl
  exact Bool.noConfusion (hends.symm.trans hc.1)

/-- The text is at its end or goes on with a blank. -/
def AtBlank (rest : Text) : Prop := ∀ c ∈ rest.head?, c = ' '

theorem lexToken_word (hw : ∀ d ∈ c :: w, Ordinary d) (hrest : AtBlank rest) :
    lexToken c (w ++ rest) = .ok (some (classifyWord (c :: w)), rest) := by
  obtain ⟨hc, hordinary⟩ := List.forall_mem_cons.mp hw
  have hnumber : ioNumberAhead (c :: (w ++ rest)) = false :=
    ioNumberAhead_append hw rest fun d hd => .inl (hrest d hd)
  have hstop : lexWordRest (rest.length + 1) rest = ([], rest) := by
    cases rest with
    | nil => rfl
    | cons d rest =>
      obtain rfl := hrest d rfl
      rfl
  have hword : lexWord c (w ++ rest) = (classifyWord (c :: w), rest) := by
    rw [lexWord, List.length_append, Nat.add_assoc, lexWordRest_append hordinary, hstop,
      List.append_nil]
  rw [lexToken_ordinary hc hnumber, hword]

/-! ## Sources of one word -/

theorem lexed_ordinary (hw : ∀ c ∈ w, Ordinary c) (hne : w ≠ []) (pos : ℕ) :
    Lexer.Lexed pos w [(classifyWord w, pos, w.length)] := by
  cases w with
  | nil => exact absurd rfl hne
  | cons c w =>
    have hblank := not_blank_of_ordinary (List.forall_mem_cons.mp hw).1
    have hlex : lexToken c (w ++ []) = .ok (some (classifyWord (c :: w)), []) :=
      lexToken_word hw nofun
    have htoken := Lexer.Lexed.token hblank hlex (.nil (pos + (w.length + 1)))
    rwa [List.append_nil] at htoken

/-- Words and assignments are parts of a word, with their own text. -/
theorem wordPart_classifyWord (h : Unreserved w) :
    wordPart (classifyWord w) = some (.literal w) := by
  simp only [Unreserved, List.mem_cons, not_or] at h
  obtain ⟨hopen, hclose, hkeyword⟩ := h
  unfold classifyWord
  dsimp only
  split
  · rename_i hassign
    obtain ⟨name, value, rfl, hname⟩ := List.eq_append_cons_of_mem hassign.1
    have htake : (name ++ '=' :: value).takeWhile (· ≠ '=') = name := by
      rw [List.takeWhile_append_of_pos, List.takeWhile_cons_of_neg (by simp), List.append_nil]
      intro c hc
      simpa using ne_of_mem_of_not_mem hc hname
    rw [htake, List.drop_length_add_append]
    rfl
  · have hlookup : keywordFromStr w = none := by
      refine List.lookup_eq_none_iff.mpr fun entry hentry => ?_
      simpa using ne_of_mem_of_not_mem (List.mem_map_of_mem hentry) hkeyword |>.symm
    simp only [hlookup]
    rfl

theorem wordPart_classifyWord_of_reserved : ∀ w ∈ ['{'] :: ['}'] :: keywords.map Prod.fst,
    wordPart (classifyWord w) = none ∧ classifyWord w ≠ .eof := by
  decide

section OneWord

variable {source : Text} {len : ℕ}

/-- A source of one token without quotes is a word only if it is not reserved. -/
theorem readWord_single_iff (hlex : Lexer.Lexed 0 (asBytes source) [(classifyWord w, 0, len)])
    (word : Word) : readWord source = some word ↔ Unreserved w ∧ word = ⟨[.literal w]⟩ := by
  by_cases h : Unreserved w
  · rw [readWord_of_adjacent hlex (wordPart_classifyWord h) (.nil _)]
    simp [h, eq_comm]
  · have hnone := (wordPart_classifyWord_of_reserved w (not_not.mp h)).1
    rw [readWord_of_none_first hlex hnone]
    simp [h]

theorem lexed_singleQuoted (hs : '\'' ∉ s) {rest : Text} {toks : List (TokenKind × ℕ × ℕ)}
    (hrest : Lexer.Lexed (s.length + 2) rest toks) :
    Lexer.Lexed 0 ('\'' :: (s ++ '\'' :: rest)) ((.singleQuoted s, 0, s.length + 2) :: toks) := by
  have hquote : '\'' ∉ [' ', '\t', '\r'] := by decide
  have hlex : lexToken '\'' ((s ++ ['\'']) ++ rest) = .ok (some (.singleQuoted s), rest) := by
    change (lexSingleQuoted ((s ++ ['\'']) ++ rest) >>= _) = _
    rw [List.append_assoc, List.singleton_append, lexSingleQuoted_append hs]
    rfl
  have hlength : (s ++ ['\'']).length + 1 = s.length + 2 := by
    rw [List.length_append, List.length_singleton]
  rw [← hlength, ← Nat.zero_add ((s ++ ['\'']).length + 1)] at hrest
  have htoken := Lexer.Lexed.token hquote hlex hrest
  rwa [hlength, List.append_assoc, List.singleton_append] at htoken

variable {before after : Text}

theorem lexed_quoted_inside (hbefore : ∀ d ∈ c :: before, Ordinary d) (hs : '\'' ∉ s)
    (hafter : ∀ c ∈ after, Ordinary c) :
    Lexer.Lexed 0 (c :: (before ++ '\'' :: (s ++ '\'' :: after)))
      [(classifyWord (c :: (before ++ (s ++ after))), 0,
        (before ++ '\'' :: (s ++ '\'' :: after)).length + 1)] := by
  obtain ⟨hc, hrest⟩ := List.forall_mem_cons.mp hbefore
  have hnumber : ioNumberAhead (c :: (before ++ '\'' :: (s ++ '\'' :: after))) = false :=
    ioNumberAhead_append hbefore ('\'' :: (s ++ '\'' :: after)) (by simp)
  have hlength : (before ++ '\'' :: (s ++ '\'' :: after)).length + 1 =
      before.length + (after.length + (s.length + 2) + 1) := by
    simp only [List.length_append, List.length_cons]
    omega
  have hword : lexWord c (before ++ '\'' :: (s ++ '\'' :: after)) =
      (classifyWord (c :: (before ++ (s ++ after))), []) := by
    have htail := lexWordRest_append hafter (s.length + 2) []
    rw [List.append_nil, lexWordRest_nil, List.append_nil] at htail
    rw [lexWord, hlength, lexWordRest_append hrest, lexWordRest_quoted hs, htail]
  have hlex := lexToken_ordinary hc hnumber
  rw [hword, ← List.append_nil (before ++ _)] at hlex
  have htoken := Lexer.Lexed.token (not_blank_of_ordinary hc) hlex (.nil (0 + _))
  rwa [List.append_nil] at htoken

/-- Parts without anything to expand, and their text. -/
inductive Spells : List WordPart → Text → Prop
  | nil : Spells [] []
  | literal {parts : List WordPart} {t : Text} (s : Text) (h : Spells parts t) :
      Spells (.literal s :: parts) (s ++ t)
  | singleQuoted {parts : List WordPart} {t : Text} (s : Text) (h : Spells parts t) :
      Spells (.singleQuoted s :: parts) (s ++ t)

theorem spells_literal (w : Text) : Spells [.literal w] w := by
  simpa using Spells.literal w .nil

/-- What has to hold for a single-quoted text with ordinary characters around it to be one word:
what follows the quotes at the front of it is not reserved, and neither is a word with quotes
inside, which the lexer drops. -/
def ReadsAsWord (before s after : Text) : Prop :=
  Unreserved (if before = [] then after else before ++ (s ++ after))

instance (before s after : Text) : Decidable (ReadsAsWord before s after) :=
  inferInstanceAs (Decidable (Unreserved _))

/-- The word that it then is. -/
def quotedWord (before s after : Text) : Word :=
  ⟨if before = [] then .singleQuoted s :: (if after = [] then [] else [.literal after])
    else [.literal (before ++ (s ++ after))]⟩

theorem spells_quotedWord (before s after : Text) :
    Spells (quotedWord before s after).parts (before ++ (s ++ after)) := by
  unfold quotedWord
  dsimp only
  split_ifs with hbefore hafter
  · rw [hbefore, hafter]
    exact .singleQuoted s .nil
  · rw [hbefore]
    exact .singleQuoted s (spells_literal after)
  · exact spells_literal _

theorem readWord_quoted_iff (hsource : asBytes source = before ++ '\'' :: (s ++ '\'' :: after))
    (hbefore : ∀ c ∈ before, Ordinary c) (hs : '\'' ∉ s) (hafter : ∀ c ∈ after, Ordinary c)
    (word : Word) : readWord source = some word ↔
      ReadsAsWord before s after ∧ word = quotedWord before s after := by
  cases before with
  | cons c before =>
    have hlex := lexed_quoted_inside hbefore hs hafter
    rw [← List.cons_append, ← hsource] at hlex
    exact readWord_single_iff hlex word
  | nil =>
    rw [List.nil_append] at hsource
    by_cases hempty : after = []
    · subst hempty
      have hlex := lexed_singleQuoted hs (.nil (s.length + 2))
      rw [← hsource] at hlex
      have hreads : ReadsAsWord [] s [] := show Unreserved [] by decide
      rw [readWord_of_adjacent hlex rfl (.nil _)]
      simp [hreads, quotedWord, eq_comm]
    · have hlex := lexed_singleQuoted hs (lexed_ordinary hafter hempty (s.length + 2))
      rw [← hsource] at hlex
      by_cases h : Unreserved after
      · rw [readWord_of_adjacent hlex rfl (.cons (wordPart_classifyWord h) (.nil _))]
        simp [ReadsAsWord, h, quotedWord, hempty, eq_comm]
      · obtain ⟨hnone, hne⟩ := wordPart_classifyWord_of_reserved after (not_not.mp h)
        rw [readWord_of_none hlex rfl hnone hne]
        simp [ReadsAsWord, h]

end OneWord

/-! ## Fields -/

variable {text target : Text}

theorem expandTilde_of_noTilde (h : NoTilde text) (env : Env) : expandTilde env text = text := by
  unfold expandTilde
  split
  · exact absurd rfl h.1
  · exact absurd ⟨_, rfl⟩ h.2
  · rfl

/-- A system without directories and commands. -/
def emptyWorld : World := ⟨fun _ => none, fun _ _ => []⟩

/-- A tilde is expanded to different directories. -/
theorem noTilde_of_forall (h : ∀ env, expandTilde env text = target) :
    NoTilde text ∧ text = target := by
  have hroot := h (.new 1)
  have hempty := h { Env.new 1 with vars := [("HOME".toList, [])] }
  have hnoTilde : NoTilde text := by
    rw [← hempty] at hroot
    constructor
    · rintro rfl
      cases hroot
    · rintro ⟨rest, rfl⟩
      exact absurd (congrArg List.length hroot) (by simp [expandTilde, Env.get, Env.new])
  exact ⟨hnoTilde, (expandTilde_of_noTilde hnoTilde _).symm.trans hroot⟩

section Lists

variable {world : World} {env : Env} {word : Word}

theorem expandWordList_of_literalBraces (hcomplete : completeWord word env = some text)
    (hglob : word.parts.any isGlob = false) (hpure : isPureUnquotedExpansion word = false)
    (hbraces : LiteralBraces text) :
    expandWordList world word env = (expandWord world word env).map ([·]) := by
  rw [expandWordList, hcomplete, Option.bind_eq_bind, Option.bind_some,
    braceWords_eq_none_iff.mpr hbraces]
  simp only [Option.bind_eq_bind, Option.bind_some, hglob, hpure]
  cases expandWord world word env <;> rfl

/-- There is no panic only where the braces stay as they are or are a list. -/
theorem expandWordList_cases (hcomplete : completeWord word env = some text)
    {result : List Text} (h : expandWordList world word env = some result) :
    LiteralBraces text ∨ ∃ words, braceWords text = some (some words) ∧
      (words.mapM (expandSingleWithGlob world)).map List.flatten = some result := by
  rw [expandWordList, hcomplete, Option.bind_eq_bind, Option.bind_some] at h
  obtain ⟨words, hwords, h⟩ := Option.bind_eq_some_iff.mp h
  cases words with
  | none => exact .inl (braceWords_eq_none_iff.mp hwords)
  | some words =>
    obtain ⟨fields, hfields, h⟩ := Option.bind_eq_some_iff.mp h
    exact .inr ⟨words, hwords, by rw [hfields]; exact h⟩

/-- A text with as many braces as before was not made of a list. -/
theorem literalBraces_of_field (hcomplete : completeWord word env = some text)
    (hcount : target.count '{' = text.count '{')
    (h : expandWordList emptyWorld word env = some [target]) : LiteralBraces text := by
  rcases expandWordList_cases hcomplete h with h | ⟨words, hwords, hfields⟩
  · exact h
  · have hself : words.mapM (expandSingleWithGlob emptyWorld) = some (words.map ([·])) :=
      List.mapM_pure
    rw [hself, Option.map_some, Option.some_inj] at hfields
    have hmem : target ∈ words := by
      have := hfields ▸ List.mem_singleton_self target
      simpa using this
    exact absurd (braceWords_count hwords hmem) (by omega)

end Lists

/-- Parts that stand for themselves are put together. -/
theorem Spells.foldlM_eq {f : Text → WordPart → Option Text}
    (hliteral : ∀ acc s, f acc (.literal s) = some (acc ++ s))
    (hquoted : ∀ acc s, f acc (.singleQuoted s) = some (acc ++ s)) {parts : List WordPart}
    (h : Spells parts text) (acc : Text) : parts.foldlM f acc = some (acc ++ text) := by
  induction h generalizing acc with
  | nil => rw [List.append_nil]; rfl
  | literal s _ ih => rw [List.foldlM_cons, hliteral, ← List.append_assoc]; exact ih _
  | singleQuoted s _ ih => rw [List.foldlM_cons, hquoted, ← List.append_assoc]; exact ih _

theorem Spells.not_special {parts : List WordPart} (h : Spells parts text) :
    parts.any isGlob = false ∧ isPureUnquotedExpansion ⟨parts⟩ = false := by
  constructor
  · induction h with
    | nil => rfl
    | literal s _ ih => exact ih
    | singleQuoted s _ ih => exact ih
  · cases h <;> rfl

theorem Spells.expandWordList_iff {word : Word} (h : Spells word.parts (asBytes text)) :
    (∀ world env, expandWordList world word env = some [text]) ↔
      Ascii text ∧ LiteralBraces text ∧ NoTilde text := by
  have hcomplete : ∀ env, completeWord word env = some (asBytes text) := fun env =>
    h.foldlM_eq (fun _ _ => rfl) (fun _ _ => rfl) []
  have hexpand : ∀ world env,
      expandWord world word env = some (expandTilde env (asBytes text)) := by
    intro world env
    rw [expandWord, h.foldlM_eq (fun _ _ => rfl) (fun _ _ => rfl), List.nil_append]
    rfl
  obtain ⟨hglob, hpure⟩ := h.not_special
  constructor
  · intro hfields
    have hbraces : LiteralBraces (asBytes text) := literalBraces_of_field (hcomplete (.new 1))
      (count_asBytes (by decide) text).symm (hfields emptyWorld (.new 1))
    have htildes : ∀ env, expandTilde env (asBytes text) = text := by
      intro env
      have hfield := hfields emptyWorld env
      rw [expandWordList_of_literalBraces (hcomplete env) hglob hpure hbraces, hexpand] at hfield
      simpa using hfield
    obtain ⟨htilde, hsame⟩ := noTilde_of_forall htildes
    rw [hsame] at hbraces htilde
    exact ⟨(ascii_of_length text).2 (congrArg List.length hsame), hbraces, htilde⟩
  · rintro ⟨hascii, hbraces, htilde⟩ world env
    rw [asBytes_of_ascii hascii] at hcomplete hexpand
    rw [expandWordList_of_literalBraces (hcomplete env) hglob hpure hbraces, hexpand,
      expandTilde_of_noTilde htilde]
    rfl

/-! ## Single quotes -/

theorem asBytes_quoted (before s after : Text) :
    asBytes (before ++ '\'' :: (s ++ '\'' :: after)) =
      asBytes before ++ '\'' :: (asBytes s ++ '\'' :: asBytes after) := by
  have hquote : asBytes ['\''] = ['\''] := asBytes_singleton (by decide)
  rw [asBytes_append, asBytes_cons, asBytes_append, asBytes_cons '\'' after, hquote]
  rfl

theorem readWord_singleQuoted (hs : '\'' ∉ s) (hascii : Ascii s) :
    readWord ('\'' :: (s ++ ['\''])) = some ⟨[.singleQuoted s]⟩ := by
  have hsource := asBytes_quoted [] s []
  rw [asBytes_of_ascii hascii] at hsource
  exact (readWord_quoted_iff hsource (by simp [asBytes, Utf8.encode]) hs
    (by simp [asBytes, Utf8.encode]) _).mpr ⟨show Unreserved [] by decide, rfl⟩

/-- The names in the directory of a word. -/
def directoryNames (world : World) (w : Text) : List Text :=
  let dirPath := (splitPathAndPattern w).1
  ((world.getdents (if dirPath = [] then ['.'] else dirPath)).map entryNames).getD []

/-- The path of a name in the directory of a word, as the word gives it. -/
def pathIn (w name : Text) : Text :=
  w.take (w.length - (splitPathAndPattern w).2.length) ++ name

/-- What the expansion of a word should be: the sorted paths of the names that match its last
component, or the word itself if there are none. -/
def IsPathnameExpansion (names : List Text) (w : Text) (result : List Text) : Prop :=
  ((∀ name ∈ names, ¬ Matches (splitPathAndPattern w).2 name) → result = [w]) ∧
  ((∃ name ∈ names, Matches (splitPathAndPattern w).2 name) → result.Pairwise (· ≤ ·) ∧
    ∀ path, path ∈ result ↔
      ∃ name ∈ names, Matches (splitPathAndPattern w).2 name ∧ path = pathIn w name)

theorem isPathnameExpansion_singleton_iff {names : List Text} {w path : Text} :
    IsPathnameExpansion names w [path] ↔
      ((∀ name ∈ names, ¬ Matches (splitPathAndPattern w).2 name) → path = w) ∧
      ∀ name ∈ names, Matches (splitPathAndPattern w).2 name → pathIn w name = path := by
  constructor
  · intro h
    refine ⟨fun hnone => by simpa using h.1 hnone, fun name hname hmatches => ?_⟩
    have hpath := ((h.2 ⟨name, hname, hmatches⟩).2 (pathIn w name)).mpr ⟨name, hname, hmatches, rfl⟩
    exact List.mem_singleton.mp hpath
  · rintro ⟨hself, hpaths⟩
    refine ⟨fun hnone => by rw [hself hnone], ?_⟩
    rintro ⟨name, hname, hmatches⟩
    refine ⟨List.pairwise_singleton _ _, fun path' => ?_⟩
    rw [List.mem_singleton]
    constructor
    · rintro rfl
      exact ⟨name, hname, hmatches, (hpaths name hname hmatches).symm⟩
    · rintro ⟨name', hname', hmatches', rfl⟩
      exact hpaths name' hname' hmatches'

/-- A word without quotes and brace list is expanded to the paths that it stands for, in every
environment, if and only if it reads as a word, its braces make no panic, there is no tilde to
expand, its bytes are the path of every name that it matches, and its characters take one byte each
if there is no such name. -/
theorem pathname_expands_iff (world : World) (hw : ∀ c ∈ w, Ordinary c) (hne : w ≠ [])
    (hlist : ¬ HasBraceList (asBytes w)) :
    (∀ env, ∃ word result, readWord w = some word ∧ expandWordList world word env = some result ∧
        IsPathnameExpansion (directoryNames world w) w result) ↔
      Unreserved (asBytes w) ∧ LiteralBraces (asBytes w) ∧ NoTilde (asBytes w) ∧
      ((∀ name ∈ directoryNames world w, ¬ Matches (splitPathAndPattern w).2 name) → Ascii w) ∧
      ∀ name ∈ directoryNames world w, Matches (splitPathAndPattern w).2 name →
        pathIn w name = asBytes w := by
  have hbytes : asBytes w ≠ [] := mt asBytes_eq_nil_iff.mp hne
  have hread := readWord_single_iff (lexed_ordinary (ordinary_asBytes hw) hbytes 0)
  have hcomplete : ∀ env, completeWord ⟨[.literal (asBytes w)]⟩ env = some (asBytes w) :=
    fun _ => rfl
  have hfields : ∀ env, LiteralBraces (asBytes w) →
      expandWordList world ⟨[.literal (asBytes w)]⟩ env = some [expandTilde env (asBytes w)] := by
    intro env hbraces
    rw [expandWordList_of_literalBraces (hcomplete env) rfl rfl hbraces]
    rfl
  simp only [hread, and_assoc, exists_and_left, exists_eq_left]
  constructor
  · intro h
    obtain ⟨hreserved, result, hresult, -⟩ := h (.new 1)
    have hbraces : LiteralBraces (asBytes w) := by
      rcases expandWordList_cases (hcomplete (.new 1)) hresult with hbraces | ⟨words, hwords, -⟩
      · exact hbraces
      · exact absurd (hasBraceList_of_braceWords hwords) hlist
    have hpaths : ∀ env, IsPathnameExpansion (directoryNames world w) w
        [expandTilde env (asBytes w)] := by
      intro env
      obtain ⟨-, result, hresult, hpaths⟩ := h env
      rw [hfields env hbraces, Option.some_inj] at hresult
      rwa [hresult]
    simp only [isPathnameExpansion_singleton_iff] at hpaths
    by_cases hnone : ∀ name ∈ directoryNames world w, ¬ Matches (splitPathAndPattern w).2 name
    · obtain ⟨htilde, hself⟩ := noTilde_of_forall fun env => (hpaths env).1 hnone
      have hascii := (ascii_of_length w).2 (congrArg List.length hself)
      exact ⟨hreserved, hbraces, htilde, fun _ => hascii, fun name hname hm =>
        absurd hm (hnone name hname)⟩
    · obtain ⟨name, hname, hm⟩ : ∃ name ∈ directoryNames world w, _ := by
        simpa only [not_forall, not_not, exists_prop] using hnone
      obtain ⟨htilde, -⟩ := noTilde_of_forall fun env => ((hpaths env).2 name hname hm).symm
      refine ⟨hreserved, hbraces, htilde, fun hall => absurd hall hnone, ?_⟩
      rw [← expandTilde_of_noTilde htilde (.new 1)]
      exact (hpaths (.new 1)).2
  · rintro ⟨hreserved, hbraces, htilde, hascii, hpaths⟩ env
    refine ⟨hreserved, _, hfields env hbraces, isPathnameExpansion_singleton_iff.mpr ?_⟩
    rw [expandTilde_of_noTilde htilde]
    exact ⟨fun hnone => asBytes_of_ascii (hascii hnone), hpaths⟩

theorem not_hasBraceList_of_notMem {text : Text} (htext : '{' ∉ text) : ¬ HasBraceList text := by
  rintro ⟨pos, _, _, _, hpos, -⟩
  rw [findBraceExpansion_none htext] at hpos
  cases hpos

/-- A pattern in a system without files. -/
theorem pathname_expands_iff_empty : (∀ c ∈ "*.c".toList, Ordinary c) ∧ "*.c".toList ≠ [] ∧
    ¬ HasBraceList (asBytes "*.c".toList) ∧
    ∀ env, ∃ word result, readWord "*.c".toList = some word ∧
      expandWordList emptyWorld word env = some result ∧
      IsPathnameExpansion (directoryNames emptyWorld "*.c".toList) "*.c".toList result := by
  have hbytes : asBytes "*.c".toList = "*.c".toList := asBytes_of_ascii (by decide)
  have hlist : ¬ HasBraceList (asBytes "*.c".toList) := by
    rw [hbytes]
    exact not_hasBraceList_of_notMem (by decide)
  refine ⟨by decide, by decide, hlist, ?_⟩
  refine (pathname_expands_iff emptyWorld (by decide) (by decide) hlist).mpr ?_
  rw [hbytes]
  refine ⟨?_, literalBraces_of_notMem (by decide), by decide, fun _ => by decide, ?_⟩
  · rw [Unreserved]
    decide
  · exact fun name hname => absurd hname List.not_mem_nil

/-- A system in which every directory has one file, `a.c`. -/
def oneFileWorld : World :=
  ⟨fun _ => some [0, 0, 0, 0, 0, 0, 0, 0, 0, 3, 97, 46, 99], fun _ _ => []⟩

/-- A pattern that a file matches is left as it is. -/
theorem pathname_wrong :
    "a.c".toList ∈ directoryNames oneFileWorld "*.c".toList ∧
      Matches (splitPathAndPattern "*.c".toList).2 "a.c".toList ∧
      ∃ word, readWord "*.c".toList = some word ∧
        expandWordList oneFileWorld word (.new 1) = some ["*.c".toList] := by
  have hreserved : Unreserved "*.c".toList := by
    rw [Unreserved]
    decide
  have hdecode : Utf8.decode [97, 46, 99] = some "a.c".toList := Utf8.decode_eq_some_iff.mpr rfl
  have hnames : directoryNames oneFileWorld "*.c".toList = ["a.c".toList] := by
    simp [directoryNames, oneFileWorld, entryNames, decodeEntries, hdecode]
  have hlex := lexed_ordinary (w := "*.c".toList) (by decide) (by decide) 0
  rw [← asBytes_of_ascii (s := "*.c".toList) (by decide)] at hlex
  refine ⟨by rw [hnames]; exact List.mem_singleton_self _, ?_, ?_⟩
  · exact .star (List.suffix_cons _ _) (.char (by decide) (by decide) (by decide)
      (.char (by decide) (by decide) (by decide) .nil))
  · refine ⟨_, (readWord_single_iff hlex _).mpr ⟨by rwa [asBytes_of_ascii (by decide)], rfl⟩, ?_⟩
    exact (spells_literal (asBytes "*.c".toList)).expandWordList_iff.mpr
      ⟨by decide, literalBraces_of_notMem (by decide), by decide⟩ oneFileWorld _

end RacOS.Shell
