import Mathlib.Data.List.Infix
import RacOS.Shell.Ast

/-!
# Glob matching

The matcher of `shell/src/expand.rs` behind pathname expansion and `case`, and the language of a
pattern.  The matcher goes over bytes, takes a range at the start of a bracket set for the whole
set, and indexes past the end of a set of two characters whose second one is a dash; for `none` it
panics.  Its answer is right if it meets none of this on its way: `Clean` follows it.
-/

namespace RacOS.Shell

/-- Whether a character is in a bracket set. -/
def charSetMatches (charSet : Text) (nameChar : Char) : Option Bool :=
  match charSet with
  | start :: '-' :: rest => rest.head?.map fun last => start ≤ nameChar ∧ nameChar ≤ last
  | _ => some (nameChar ∈ charSet)

/-- Recursive matching with backtracking. -/
def globMatchRecursive (name : Text) (pattern : Text) : Option Bool :=
  match pattern with
  | [] => some name.isEmpty
  | ['*'] => some true
  | '*' :: rest => name.tails.anyM fun tail => globMatchRecursive tail rest
  | '?' :: rest =>
    match name with
    | [] => some false
    | _ :: tail => globMatchRecursive tail rest
  | '[' :: rest =>
    match name with
    | [] => some false
    | nameChar :: tail =>
      if ']' ∈ rest then do
        let closePos := rest.idxOf ']'
        if ← charSetMatches (rest.take closePos) nameChar then
          globMatchRecursive tail (rest.drop (closePos + 1))
        else
          some false
      else
        some false
  | c :: rest =>
    match name with
    | [] => some false
    | nameChar :: tail => if nameChar = c then globMatchRecursive tail rest else some false
termination_by pattern.length

def globMatch (name pattern : Text) : Option Bool :=
  globMatchRecursive (asBytes name) (asBytes pattern)

def patternMatch (value pattern : Text) : Option Bool := globMatch value pattern

/-! ## The language of a pattern -/

/-- A set is given by single characters and ranges. -/
def InSet (c : Char) : Text → Prop
  | first :: '-' :: last :: rest => (first ≤ c ∧ c ≤ last) ∨ InSet c rest
  | first :: rest => c = first ∨ InSet c rest
  | [] => False

/-- The language of a pattern.  A bracket set ends at the first closing bracket. -/
inductive Matches : Text → Text → Prop
  | nil : Matches [] []
  | star {rest tail name : Text} (hsuffix : tail <:+ name) (htail : Matches rest tail) :
      Matches ('*' :: rest) name
  | question {rest tail : Text} (c : Char) (htail : Matches rest tail) :
      Matches ('?' :: rest) (c :: tail)
  | set {charSet rest tail : Text} {c : Char} (hend : ']' ∉ charSet) (hc : InSet c charSet)
      (htail : Matches rest tail) : Matches ('[' :: (charSet ++ ']' :: rest)) (c :: tail)
  | char {c : Char} {rest tail : Text} (hstar : c ≠ '*') (hquestion : c ≠ '?')
      (hset : c ≠ '[') (htail : Matches rest tail) : Matches (c :: rest) (c :: tail)

variable {c d : Char} {charSet rest name tail pattern : Text}

theorem matches_nil_iff : Matches [] name ↔ name = [] := by
  constructor
  · intro h
    cases h
    rfl
  · rintro rfl
    exact .nil

theorem matches_star_iff : Matches ('*' :: rest) name ↔ ∃ tail ∈ name.tails, Matches rest tail := by
  constructor
  · intro h
    cases h with
    | star hsuffix htail => exact ⟨_, (List.mem_tails _ _).mpr hsuffix, htail⟩
    | char hstar => exact absurd rfl hstar
  · rintro ⟨tail, htail, hmatches⟩
    exact .star ((List.mem_tails _ _).mp htail) hmatches

theorem matches_stars_iff : Matches ('*' :: '*' :: rest) name ↔ Matches ('*' :: rest) name := by
  constructor
  · intro h
    obtain ⟨tail, htail, h⟩ := matches_star_iff.mp h
    obtain ⟨tail', htail', h⟩ := matches_star_iff.mp h
    exact .star (((List.mem_tails _ _).mp htail').trans ((List.mem_tails _ _).mp htail)) h
  · exact .star List.suffix_rfl

theorem not_matches_nil (hc : c ≠ '*') : ¬ Matches (c :: rest) [] := by
  intro h
  cases h
  exact hc rfl

theorem matches_question_iff : Matches ('?' :: rest) (c :: tail) ↔ Matches rest tail := by
  constructor
  · intro h
    cases h with
    | question _ htail => exact htail
    | char _ hquestion => exact absurd rfl hquestion
  · exact .question c

theorem idxOf_close (hend : ']' ∉ charSet) :
    (charSet ++ ']' :: rest).idxOf ']' = charSet.length := by
  rw [List.idxOf_append_of_notMem hend, List.idxOf_cons_self, Nat.add_zero]

theorem matches_set_iff (hend : ']' ∉ charSet) :
    Matches ('[' :: (charSet ++ ']' :: rest)) (c :: tail) ↔
      InSet c charSet ∧ Matches rest tail := by
  constructor
  · intro h
    generalize hpattern : '[' :: (charSet ++ ']' :: rest) = pattern at h
    cases h with
    | star => exact absurd hpattern (by simp)
    | question => exact absurd hpattern (by simp)
    | set hend' hc htail =>
      have hsplit := (List.cons.inj hpattern).2
      have hlength := congrArg (List.idxOf ']') hsplit
      rw [idxOf_close hend, idxOf_close hend'] at hlength
      obtain ⟨rfl, hrest⟩ := List.append_inj hsplit hlength
      obtain ⟨-, rfl⟩ := List.cons.inj hrest
      exact ⟨hc, htail⟩
    | char _ _ hset => exact absurd (List.cons.inj hpattern).1.symm hset
  · rintro ⟨hc, htail⟩
    exact .set hend hc htail

theorem not_matches_unclosed (hend : ']' ∉ rest) : ¬ Matches ('[' :: rest) name := by
  intro h
  cases h with
  | set => exact hend (by simp)
  | char _ _ hset => exact hset rfl

theorem matches_char_iff (hc : c ∉ ['*', '?', '[']) :
    Matches (c :: rest) (d :: tail) ↔ d = c ∧ Matches rest tail := by
  simp only [List.mem_cons, List.not_mem_nil, or_false, not_or] at hc
  obtain ⟨hstar, hquestion, hset⟩ := hc
  constructor
  · intro h
    cases h with
    | star => exact absurd rfl hstar
    | question => exact absurd rfl hquestion
    | set => exact absurd rfl hset
    | char _ _ _ htail => exact ⟨rfl, htail⟩
  · rintro ⟨rfl, htail⟩
    exact .char hstar hquestion hset htail

/-! ## The steps of the matcher -/

theorem globMatchRecursive_nil (hc : c ≠ '*') (rest : Text) :
    globMatchRecursive [] (c :: rest) = some false := by
  unfold globMatchRecursive
  split <;> first | rfl | simp_all

theorem globMatchRecursive_star (hrest : rest ≠ []) (name : Text) :
    globMatchRecursive name ('*' :: rest) =
      name.tails.anyM fun tail => globMatchRecursive tail rest := by
  rw [globMatchRecursive]
  exact hrest

theorem globMatchRecursive_char (hc : c ∉ ['*', '?', '[']) :
    globMatchRecursive (d :: tail) (c :: rest) =
      if d = c then globMatchRecursive tail rest else some false := by
  simp only [List.mem_cons, List.not_mem_nil, or_false, not_or] at hc
  rw [globMatchRecursive]
  all_goals simp_all

theorem globMatchRecursive_unclosed (hclose : ']' ∉ rest) (name : Text) :
    globMatchRecursive name ('[' :: rest) = some false := by
  cases name with
  | nil => rw [globMatchRecursive]
  | cons d tail => rw [globMatchRecursive, if_neg hclose]

theorem globMatchRecursive_set (hend : ']' ∉ charSet) :
    globMatchRecursive (d :: tail) ('[' :: (charSet ++ ']' :: rest)) =
      (charSetMatches charSet d).bind fun b =>
        if b then globMatchRecursive tail rest else some false := by
  have hdrop : (charSet ++ ']' :: rest).drop (charSet.length + 1) = rest := by simp
  rw [globMatchRecursive, if_pos (by simp)]
  dsimp only
  rw [idxOf_close hend, List.take_left, hdrop]
  rfl

variable {bytes : Text} {f : Text → Option Bool}

/-- Bytes that stand for themselves are looked for at the start of the name. -/
theorem globMatchRecursive_append (hbytes : ∀ c ∈ bytes, c ∉ ['*', '?', '['])
    (name : Text) : globMatchRecursive name (bytes ++ rest) =
      if bytes <+: name then globMatchRecursive (name.drop bytes.length) rest else some false := by
  induction bytes generalizing name with
  | nil => simp
  | cons c bytes ih =>
    obtain ⟨hc, hbytes⟩ := List.forall_mem_cons.mp hbytes
    cases name with
    | nil =>
      rw [List.cons_append, globMatchRecursive_nil (by rintro rfl; simp at hc), if_neg (by simp)]
    | cons d name =>
      rw [List.cons_append, globMatchRecursive_char hc, ih hbytes]
      by_cases hd : d = c
      · simp [hd]
      · simp [hd, Ne.symm hd, List.cons_prefix_cons]

/-! ## The matcher's answers -/

/-- The matcher returns, and what it returns is whether the property holds. -/
def Answers (result : Option Bool) (p : Prop) : Prop :=
  ∃ b, result = some b ∧ (b = true ↔ p)

theorem answers_some {b : Bool} {p : Prop} (h : b = true ↔ p) : Answers (some b) p :=
  ⟨b, rfl, h⟩

theorem answers_false {p : Prop} (h : ¬ p) : Answers (some false) p :=
  answers_some (by simp [h])

theorem Answers.congr {result : Option Bool} {p q : Prop} (h : Answers result p) (hpq : q ↔ p) :
    Answers result q := by
  obtain ⟨b, hresult, hb⟩ := h
  exact ⟨b, hresult, hb.trans hpq.symm⟩

theorem anyM_eq_some_false_iff {l : List Text} :
    l.anyM f = some false ↔ ∀ t ∈ l, f t = some false := by
  induction l with
  | nil => simp [List.anyM]
  | cons t l ih =>
    rw [List.anyM, List.forall_mem_cons, ← ih]
    rcases hf : f t with _ | _ | _ <;> simp

/-- After two stars the first tail, which is the whole name, decides. -/
theorem answers_stars {p : Prop}
    (h : Answers (globMatchRecursive bytes ('*' :: rest)) p) :
    Answers (globMatchRecursive bytes ('*' :: '*' :: rest)) p := by
  obtain ⟨b, hb, hp⟩ := h
  have htails : bytes.tails = bytes :: bytes.tails.tail := by cases bytes <;> simp
  rw [globMatchRecursive_star (List.cons_ne_nil _ _), htails, List.anyM, hb]
  cases b with
  | true => exact answers_some hp
  | false =>
    have hrest : rest ≠ [] := by
      rintro rfl
      rw [globMatchRecursive] at hb
      cases hb
    rw [globMatchRecursive_star hrest, anyM_eq_some_false_iff] at hb
    have hothers : bytes.tails.tail.anyM (fun tail => globMatchRecursive tail ('*' :: rest)) =
        some false := by
      refine anyM_eq_some_false_iff.mpr fun tail htail => ?_
      rw [globMatchRecursive_star hrest, anyM_eq_some_false_iff]
      intro tail' htail'
      refine hb tail' ((List.mem_tails _ _).mpr ?_)
      exact ((List.mem_tails _ _).mp htail').trans
        ((List.mem_tails _ _).mp (List.mem_of_mem_tail htail))
    exact ⟨false, hothers, hp⟩

/-- The first byte of a character. -/
def firstByte (d : Char) : Char := (asBytes [d]).headD d

/-- A byte is in the range at the front of a set, or else among the bytes of the set. -/
def Found (b : Char) : Text → Prop
  | first :: '-' :: last :: _ => first ≤ b ∧ b ≤ last
  | bytes => b ∈ bytes

/-- A set of two bytes, the second of which is a dash. -/
def Endless (bytes : Text) : Prop := ∃ first, bytes = [first, '-']

theorem charSetMatches_answers (h : ¬ Endless bytes) (b : Char) :
    Answers (charSetMatches bytes b) (Found b bytes) := by
  unfold charSetMatches
  split
  next start rest =>
    cases rest with
    | nil => exact absurd ⟨start, rfl⟩ h
    | cons last rest => exact answers_some (by simp [Found])
  next hset =>
    refine answers_some ?_
    rw [Found, decide_eq_true_iff]
    exact fun first last rest => hset first (last :: rest)

/-- What begins inside a character cannot match: the pattern goes on with a character that stands
for itself, or with a set in which the byte is not found. -/
def FailsOn (b : Char) : Text → Prop
  | '?' :: _ => False
  | '[' :: rest => ∀ charSet after, rest = charSet ++ ']' :: after → ']' ∉ charSet →
      ¬ Endless (asBytes charSet) ∧ ¬ Found b (asBytes charSet)
  | _ => True

/-- The property holds at no place of the name before the tail. -/
def NotBefore (p : Text → Prop) (name tail : Text) : Prop :=
  ∀ longer, longer <:+ name → tail.length < longer.length → ¬ p longer

/-- The way of the matcher through a pattern and a name.  A question mark is only tried on
characters of one byte, and the first byte of a character is found in a set if and only if the
character belongs to it and takes no other byte; after a star the tails of the name are tried until
one matches, and those that begin inside a character fail. -/
inductive Clean : Text → Text → Prop
  | nil (name : Text) : Clean [] name
  | last (name : Text) : Clean ['*'] name
  | stars {rest name : Text} (h : Clean ('*' :: rest) name) : Clean ('*' :: '*' :: rest) name
  | star {c : Char} {rest name : Text} (hc : c ≠ '*')
      (h : ∀ tail, tail <:+ name → NotBefore (Matches (c :: rest)) name tail →
        Clean (c :: rest) tail)
      (hinside : ∀ d tail, d :: tail <:+ name → 128 ≤ d.toNat →
        NotBefore (Matches (c :: rest)) name tail →
        ∀ b ∈ (asBytes [d]).tail, FailsOn b (c :: rest)) : Clean ('*' :: c :: rest) name
  | empty {c : Char} (rest : Text) (hc : c ≠ '*') : Clean (c :: rest) []
  | question {d : Char} {rest tail : Text} (hd : d.toNat < 128) (h : Clean rest tail) :
      Clean ('?' :: rest) (d :: tail)
  | unclosed {rest : Text} (name : Text) (h : ']' ∉ rest) : Clean ('[' :: rest) name
  | set {charSet rest tail : Text} {d : Char} (hend : ']' ∉ charSet)
      (hendless : ¬ Endless (asBytes charSet))
      (hfound : Found (firstByte d) (asBytes charSet) ↔ InSet d charSet)
      (hd : InSet d charSet → d.toNat < 128) (h : InSet d charSet → Clean rest tail) :
      Clean ('[' :: (charSet ++ ']' :: rest)) (d :: tail)
  | char {c d : Char} {rest tail : Text} (hc : c ∉ ['*', '?', '[']) (h : d = c → Clean rest tail) :
      Clean (c :: rest) (d :: tail)

/-! ## Bytes of names and patterns -/

theorem asBytes_of_lt (hc : c.toNat < 128) (rest : Text) :
    asBytes (c :: rest) = c :: asBytes rest := by
  rw [asBytes_cons, asBytes_singleton hc, List.singleton_append]

theorem asBytes_set (charSet rest : Text) : asBytes ('[' :: (charSet ++ ']' :: rest)) =
    '[' :: (asBytes charSet ++ ']' :: asBytes rest) := by
  rw [asBytes_of_lt (by decide), asBytes_append, asBytes_of_lt (by decide)]

theorem asBytes_eq_firstByte (d : Char) (tail : Text) :
    asBytes (d :: tail) = firstByte d :: ((asBytes [d]).tail ++ asBytes tail) := by
  rw [asBytes_cons, ← List.cons_append, firstByte]
  congr 1
  obtain ⟨b, bytes, hbytes⟩ :=
    List.exists_cons_of_ne_nil (mt asBytes_eq_nil_iff.mp (List.cons_ne_nil d []))
  rw [hbytes]
  rfl

theorem firstByte_ne (hc : c ≠ '*') : firstByte c ≠ '*' := by
  intro h
  have hmem : firstByte c ∈ asBytes [c] := by
    rw [asBytes_eq_firstByte]
    exact List.mem_cons_self
  rw [h, mem_asBytes_iff (by decide), List.mem_singleton] at hmem
  exact hc hmem.symm

/-- The bytes of a character that stands for itself stand for themselves. -/
theorem not_special_of_mem (hc : c ∉ ['*', '?', '[']) : ∀ b ∈ asBytes [c], b ∉ ['*', '?', '['] := by
  have hlow : ∀ b ∈ ['*', '?', '['], b.toNat < 128 := by decide
  intro b hb hspecial
  have hmem := (mem_asBytes_iff (hlow b hspecial)).mp hb
  rw [List.mem_singleton.mp hmem] at hspecial
  exact hc hspecial

theorem eq_of_asBytes_starts (h : asBytes [c] <+: asBytes (d :: tail)) : c = d := by
  have hinj : Function.Injective fun b : UInt8 => Char.ofNat b.toNat := by
    intro a b hab
    have htoNat := congrArg Char.toNat hab
    dsimp only at htoNat
    rwa [toNat_byte, toNat_byte, UInt8.toNat_inj] at htoNat
  have hbytes := (List.prefix_map_iff_of_injective hinj).mp h
  simp only [Utf8.encode, List.flatMap_cons, List.flatMap_nil, List.append_nil] at hbytes
  exact Utf8.eq_of_encode_prefix hbytes

theorem globMatchRecursive_asBytes_char (hc : c ∉ ['*', '?', '[']) (tail rest : Text) :
    globMatchRecursive (asBytes (d :: tail)) (asBytes (c :: rest)) =
      if d = c then globMatchRecursive (asBytes tail) (asBytes rest) else some false := by
  rw [asBytes_cons c rest, globMatchRecursive_append (not_special_of_mem hc)]
  by_cases hd : d = c
  · rw [if_pos hd, hd, asBytes_cons c tail, if_pos (List.prefix_append _ _), List.drop_left]
  · rw [if_neg hd, if_neg fun h => hd (eq_of_asBytes_starts h).symm]

/-- A continuation byte is not the start of what a pattern looks for. -/
theorem globMatchRecursive_inside {b : Char} (hb : 0x80 ≤ b.toNat ∧ b.toNat ≤ 0xBF) (hc : c ≠ '*')
    (hfails : FailsOn b (c :: rest)) (bytes : Text) :
    globMatchRecursive (b :: bytes) (asBytes (c :: rest)) = some false := by
  by_cases hspecial : c ∈ ['*', '?', '[']
  · simp only [List.mem_cons, List.not_mem_nil, or_false, hc, false_or] at hspecial
    obtain rfl | rfl := hspecial
    · exact absurd hfails id
    by_cases hclose : ']' ∈ rest
    · obtain ⟨charSet, after, rfl, hend⟩ := List.eq_append_cons_of_mem hclose
      have hend' : ']' ∉ asBytes charSet := fun h => hend ((mem_asBytes_iff (by decide)).mp h)
      obtain ⟨hendless, hfound⟩ := hfails charSet after rfl hend
      obtain ⟨found, hmatches, hb⟩ := charSetMatches_answers hendless b
      rw [asBytes_set, globMatchRecursive_set hend', hmatches,
        Bool.eq_false_iff.mpr fun h => hfound (hb.mp h)]
      rfl
    · rw [asBytes_of_lt (by decide)]
      exact globMatchRecursive_unclosed (fun h => hclose ((mem_asBytes_iff (by decide)).mp h)) _
  · have hne : ¬ asBytes [c] <+: b :: bytes := by
      intro hle
      rcases Nat.lt_or_ge c.toNat 128 with hlow | hhigh
      · rw [asBytes_singleton hlow, List.cons_prefix_cons] at hle
        rw [hle.1] at hlow
        omega
      · obtain ⟨lead, more, hbytes, -, hlead, -⟩ := asBytes_high hhigh
        rw [hbytes, List.cons_prefix_cons] at hle
        rw [hle.1] at hlead
        omega
    rw [asBytes_cons, globMatchRecursive_append (not_special_of_mem hspecial), if_neg hne]

theorem continuation_of_mem_tail {b : Char} (hd : 128 ≤ d.toNat) (hb : b ∈ (asBytes [d]).tail) :
    0x80 ≤ b.toNat ∧ b.toNat ≤ 0xBF := by
  obtain ⟨lead, more, hbytes, -, -, hmore⟩ := asBytes_high hd
  rw [hbytes] at hb
  exact hmore b hb

/-- The loop passes the places where nothing begins. -/
theorem anyM_tails_append
    (h : ∀ b more, b :: more <:+ bytes → f (b :: (more ++ name)) = some false) :
    (bytes ++ name).tails.anyM f = name.tails.anyM f := by
  induction bytes with
  | nil => rfl
  | cons b bytes ih =>
    rw [List.cons_append, List.tails_cons, List.anyM, h b bytes List.suffix_rfl]
    exact ih fun b' more hle => h b' more (hle.trans (List.suffix_cons b bytes))

theorem NotBefore.cons {p : Text → Prop} (hnot : ¬ p (d :: name)) (h : NotBefore p name tail) :
    NotBefore p (d :: name) tail := by
  intro longer hle hlt
  rcases List.suffix_cons_iff.mp hle with rfl | hle
  · exact hnot
  · exact h longer hle hlt

theorem notBefore_self (p : Text → Prop) (name : Text) : NotBefore p name name :=
  fun _ hle hlt => absurd hle.length_le (Nat.not_le.mpr hlt)

/-- The loop over the places where the rest of the pattern may begin. -/
theorem answers_tails {p : Text → Prop}
    (h : ∀ tail, tail <:+ name → NotBefore p name tail → Answers (f (asBytes tail)) (p tail))
    (hinside : ∀ d tail, d :: tail <:+ name → 128 ≤ d.toNat → NotBefore p name tail →
      ∀ b ∈ (asBytes [d]).tail, ∀ bytes, f (b :: bytes) = some false) :
    Answers ((asBytes name).tails.anyM f) (∃ tail ∈ name.tails, p tail) := by
  induction name with
  | nil =>
    obtain ⟨b, hb, hp⟩ : Answers (f []) (p []) := h [] List.suffix_rfl (notBefore_self p [])
    refine ⟨b, ?_, by simpa using hp⟩
    change ([[]] : List Text).anyM f = some b
    cases b <;> simp [List.anyM, hb]
  | cons d name ih =>
    obtain ⟨b, hb, hp⟩ := h (d :: name) List.suffix_rfl (notBefore_self p _)
    rw [asBytes_eq_firstByte] at hb ⊢
    rw [List.tails_cons, List.anyM, hb]
    cases b with
    | true => exact answers_some (by simpa using .inl (hp.mp rfl))
    | false =>
      have hnot : ¬ p (d :: name) := fun h => absurd (hp.mpr h) (by simp)
      have hskip : ((asBytes [d]).tail ++ asBytes name).tails.anyM f =
          (asBytes name).tails.anyM f := by
        refine anyM_tails_append fun b more hle => ?_
        have hmem := hle.subset List.mem_cons_self
        rcases Nat.lt_or_ge d.toNat 128 with hlow | hhigh
        · rw [asBytes_singleton hlow] at hmem
          cases hmem
        · exact hinside d name List.suffix_rfl hhigh ((notBefore_self p name).cons hnot) b hmem _
      have hrest := ih
        (fun tail hle hbefore => h tail (hle.trans (List.suffix_cons d name)) (hbefore.cons hnot))
        (fun e tail hle hhigh hbefore => hinside e tail (hle.trans (List.suffix_cons d name)) hhigh
          (hbefore.cons hnot))
      change Answers (((asBytes [d]).tail ++ asBytes name).tails.anyM f) _
      rw [hskip]
      exact hrest.congr (by simp [hnot])

/-- On its way the matcher finds out whether the name is in the language of the pattern. -/
theorem globMatchRecursive_answers (h : Clean pattern name) :
    Answers (globMatchRecursive (asBytes name) (asBytes pattern)) (Matches pattern name) := by
  induction h with
  | nil name =>
    change Answers (globMatchRecursive (asBytes name) []) _
    rw [globMatchRecursive]
    exact answers_some (by rw [matches_nil_iff, List.isEmpty_iff, asBytes_eq_nil_iff])
  | last name =>
    have hmatches : Matches ['*'] name := .star (List.nil_suffix) .nil
    rw [asBytes_of_lt (by decide : '*'.toNat < 128)]
    change Answers (globMatchRecursive (asBytes name) ['*']) _
    rw [globMatchRecursive]
    exact answers_some (by simp [hmatches])
  | @stars rest name _ ih =>
    rw [asBytes_of_lt (by decide : '*'.toNat < 128)] at ih ⊢
    rw [asBytes_of_lt (by decide : '*'.toNat < 128)]
    exact (answers_stars ih).congr matches_stars_iff
  | @star c rest name hc _ hinside ih =>
    have hne : asBytes (c :: rest) ≠ [] := by
      rw [asBytes_eq_firstByte]
      exact List.cons_ne_nil _ _
    rw [asBytes_of_lt (by decide : '*'.toNat < 128), globMatchRecursive_star hne]
    refine (answers_tails ih fun d tail hle hhigh hbefore b hb bytes => ?_).congr matches_star_iff
    exact globMatchRecursive_inside (continuation_of_mem_tail hhigh hb) hc
      (hinside d tail hle hhigh hbefore b hb) bytes
  | @empty c rest hc =>
    rw [asBytes_eq_firstByte]
    change Answers (globMatchRecursive [] _) _
    rw [globMatchRecursive_nil (firstByte_ne hc)]
    exact answers_false (not_matches_nil hc)
  | @question d rest tail hd _ ih =>
    rw [asBytes_of_lt (by decide : '?'.toNat < 128), asBytes_of_lt hd, globMatchRecursive]
    exact ih.congr matches_question_iff
  | @unclosed rest name hclose =>
    rw [asBytes_of_lt (by decide : '['.toNat < 128), globMatchRecursive_unclosed fun h =>
      hclose ((mem_asBytes_iff (by decide)).mp h)]
    exact answers_false (not_matches_unclosed hclose)
  | @set charSet rest tail d hend hendless hfound hd _ ih =>
    obtain ⟨b, hb, hin⟩ := (charSetMatches_answers hendless (firstByte d)).congr hfound.symm
    have hend' : ']' ∉ asBytes charSet := fun h => hend ((mem_asBytes_iff (by decide)).mp h)
    rw [asBytes_set, asBytes_eq_firstByte, globMatchRecursive_set hend', hb]
    cases b with
    | false =>
      refine answers_false fun hm => ?_
      exact absurd (hin.mpr ((matches_set_iff hend).mp hm).1) (by simp)
    | true =>
      have hset := hin.mp rfl
      rw [asBytes_singleton (hd hset)]
      exact (ih hset).congr ((matches_set_iff hend).trans (and_iff_right hset))
  | @char c d rest tail hc _ ih =>
    rw [globMatchRecursive_asBytes_char hc]
    by_cases hd : d = c
    · rw [if_pos hd]
      exact (ih hd).congr ((matches_char_iff hc).trans (and_iff_right hd))
    · rw [if_neg hd]
      exact answers_false fun hm => hd ((matches_char_iff hc).mp hm).1

/-- **Glob matching.**  On a clean way the matcher returns, and returns whether the name is in the
language of the pattern. -/
theorem patternMatch_answers (h : Clean pattern name) :
    ∃ b, patternMatch name pattern = some b ∧ (b = true ↔ Matches pattern name) :=
  globMatchRecursive_answers h

/-- A letter of two bytes, a range and a star. -/
theorem patternMatch_answers_digit : Clean "é[0-9]*".toList "é7.c".toList ∧
    ∃ b, patternMatch "é7.c".toList "é[0-9]*".toList = some b ∧
      (b = true ↔ Matches "é[0-9]*".toList "é7.c".toList) := by
  have hdigit : InSet '7' "0-9".toList := .inl (by decide)
  have hbytes : asBytes "0-9".toList = "0-9".toList := asBytes_of_ascii (by decide)
  have hendless : ¬ Endless (asBytes "0-9".toList) := by
    rintro ⟨first, hfirst⟩
    rw [hbytes] at hfirst
    exact absurd (congrArg List.length hfirst) (by simp)
  have hfound : Found (firstByte '7') (asBytes "0-9".toList) ↔ InSet '7' "0-9".toList := by
    rw [hbytes]
    exact iff_of_true ⟨by decide, by decide⟩ hdigit
  have hset : Clean "[0-9]*".toList "7.c".toList :=
    Clean.set (by decide) hendless hfound (fun _ => by decide) fun _ => .last ".c".toList
  have hclean : Clean "é[0-9]*".toList "é7.c".toList := .char (by decide) fun _ => hset
  exact ⟨hclean, patternMatch_answers hclean⟩

/-- The first set makes the matcher panic, the second range of the second set is not looked at, and
the last name is one character of two bytes. -/
theorem patternMatch_wrong :
    (patternMatch "a".toList "[a-]".toList = none ∧ Matches "[a-]".toList "a".toList) ∧
    (patternMatch "y".toList "[a-cx-z]".toList = some false ∧
      Matches "[a-cx-z]".toList "y".toList) ∧
    (patternMatch "é".toList "?".toList = some false ∧ Matches "?".toList "é".toList) := by
  have hbytes : asBytes "é".toList = [Char.ofNat 0xC3, Char.ofNat 0xA9] := by decide
  refine ⟨⟨?_, ?_⟩, ⟨?_, ?_⟩, ⟨?_, ?_⟩⟩
  · rw [patternMatch, globMatch, asBytes_of_ascii (by decide), asBytes_of_ascii (by decide)]
    simp [globMatchRecursive, charSetMatches]
  · have hend : ']' ∉ "a-".toList := by decide
    exact (matches_set_iff hend).mpr ⟨.inl rfl, .nil⟩
  · rw [patternMatch, globMatch, asBytes_of_ascii (by decide), asBytes_of_ascii (by decide)]
    simp [globMatchRecursive, charSetMatches]
  · have hend : ']' ∉ "a-cx-z".toList := by decide
    exact (matches_set_iff hend).mpr ⟨.inr (.inl (by decide)), .nil⟩
  · rw [patternMatch, globMatch, hbytes, asBytes_of_ascii (by decide)]
    simp [globMatchRecursive]
  · exact .question _ .nil

end RacOS.Shell
