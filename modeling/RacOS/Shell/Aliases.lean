import Mathlib.Data.List.Nodup
import RacOS.Shell.Env

/-!
# Alias expansion

The model of `expand_aliases` of `shell/src/exec.rs`.  A round replaces the first word by what it is
an alias for.  A name that was replaced before is left alone, and an alias for nothing removes the
first word and ends the loop.
-/

namespace RacOS.Shell

/-- One round of the loop: the words that are returned, or those of the next round, with the names
that were replaced so far.  The source keeps no name beside the result; here the last one is there
too if it is an alias for nothing. -/
def aliasRound (env : Env) (seen words : List Text) :
    List Text × List Text ⊕ List Text × List Text :=
  match words with
  | [] => .inl (seen, [])
  | head :: rest =>
    if head ∈ seen then .inl (seen, words)
    else
      match env.aliases.lookupAlias head with
      | none => .inl (seen, words)
      | some replacement =>
        match splitWhitespace replacement with
        | [] => .inl (seen ++ [head], rest)
        | word :: more => .inr (seen ++ [head], word :: more ++ rest)

/-- The loop of `expand_aliases`, as far as the given number of rounds gets it. -/
def expandAliases (env : Env) : ℕ → List Text → List Text → Option (List Text × List Text)
  | 0, _, _ => none
  | rounds + 1, seen, words =>
    match aliasRound env seen words with
    | .inl result => some result
    | .inr (seen, words) => expandAliases env rounds seen words

variable {env : Env} {seen words : List Text}

/-- The names that were replaced are different aliases. -/
structure Replaced (env : Env) (seen : List Text) : Prop where
  nodup : seen.Nodup
  aliases : ∀ name ∈ seen, ∃ value, env.aliases.lookupAlias name = some value

theorem Replaced.length_le (h : Replaced env seen) : seen.length ≤ env.aliases.entries.length := by
  rw [← List.length_map Prod.fst]
  refine List.Nodup.length_le_of_subset h.nodup fun name hname => ?_
  obtain ⟨value, hvalue⟩ := h.aliases name hname
  exact List.mem_map_of_mem (AliasTable.lookupAlias_eq_some_iff.mp hvalue)

theorem Replaced.snoc (h : Replaced env seen) {head value : Text} (hnew : head ∉ seen)
    (hvalue : env.aliases.lookupAlias head = some value) : Replaced env (seen ++ [head]) := by
  refine ⟨List.nodup_append.mpr ⟨h.nodup, List.nodup_singleton head, ?_⟩, fun name hname => ?_⟩
  · rintro a ha b hb rfl
    exact hnew (List.mem_singleton.mp hb ▸ ha)
  · rcases List.mem_append.mp hname with hname | hname
    · exact h.aliases name hname
    · exact ⟨value, List.mem_singleton.mp hname ▸ hvalue⟩

/-- The words become the result when the given names, in their order, are replaced at its head by
the words of what they are aliases for. -/
inductive Replacing (env : Env) : List Text → List Text → List Text → Prop
  | done (words : List Text) : Replacing env words [] words
  | next {head value : Text} {rest names result : List Text}
      (hvalue : env.aliases.lookupAlias head = some value)
      (hnext : Replacing env (splitWhitespace value ++ rest) names result) :
      Replacing env (head :: rest) (head :: names) result

/-- The first word is no alias, or one that was replaced, or the name replaced last is an alias for
nothing. -/
def Settled (env : Env) (seen result : List Text) : Prop :=
  (∀ head, result.head? = some head → env.aliases.lookupAlias head = none ∨ head ∈ seen) ∨
    ∃ name value, seen.getLast? = some name ∧ env.aliases.lookupAlias name = some value ∧
      splitWhitespace value = []

/-- What a round does.  In the words, `kept` is at the end and something is before it. -/
theorem aliasRound_cases (h : Replaced env seen) {front kept : List Text} (hfront : front ≠ []) :
    (∃ names result, aliasRound env seen (front ++ kept) = .inl (seen ++ names, result) ∧
      Replaced env (seen ++ names) ∧ Replacing env (front ++ kept) names result ∧
      kept <:+ result ∧ Settled env (seen ++ names) result) ∨
    ∃ head front', aliasRound env seen (front ++ kept) = .inr (seen ++ [head], front' ++ kept) ∧
      Replaced env (seen ++ [head]) ∧ front' ≠ [] ∧
      ∀ names result, Replacing env (front' ++ kept) names result →
        Replacing env (front ++ kept) (head :: names) result := by
  obtain ⟨head, front, rfl⟩ := List.exists_cons_of_ne_nil hfront
  have hkept : kept <:+ head :: (front ++ kept) := List.suffix_append (head :: front) kept
  rw [List.cons_append]
  have hstop {words : List Text} (hwords : words = head :: (front ++ kept))
      (hsettled : env.aliases.lookupAlias head = none ∨ head ∈ seen) :
      Replaced env (seen ++ []) ∧ Replacing env words [] words ∧ kept <:+ words ∧
        Settled env (seen ++ []) words := by
    subst hwords
    rw [List.append_nil]
    refine ⟨h, .done _, hkept, .inl fun name hname => ?_⟩
    cases hname
    exact hsettled
  rw [aliasRound]
  by_cases hseen : head ∈ seen
  · rw [if_pos hseen]
    exact .inl ⟨[], _, by rw [List.append_nil], hstop rfl (.inr hseen)⟩
  rw [if_neg hseen]
  cases hlookup : env.aliases.lookupAlias head with
  | none => exact .inl ⟨[], _, by rw [List.append_nil], hstop rfl (.inl hlookup)⟩
  | some value =>
    dsimp only
    cases hsplit : splitWhitespace value with
    | nil =>
      refine .inl ⟨[head], front ++ kept, rfl, h.snoc hseen hlookup, .next hlookup ?_,
        List.suffix_append front kept, .inr ?_⟩
      · rw [hsplit]
        exact .done _
      · exact ⟨head, value, List.getLast?_concat, hlookup, hsplit⟩
    | cons word more =>
      refine .inr ⟨head, word :: more ++ front, by simp, h.snoc hseen hlookup, by simp, ?_⟩
      intro names result hnext
      refine .next hlookup ?_
      rw [hsplit, ← List.append_assoc]
      exact hnext

/-- The loop ends after a round for each name that it replaces and at most one more. -/
theorem expandAliases_settles (left : ℕ) (h : Replaced env seen) {front kept : List Text}
    (hfront : front ≠ []) (hleft : env.aliases.entries.length < seen.length + left) :
    ∃ names result, (∀ rounds, names.length < rounds →
        expandAliases env rounds seen (front ++ kept) = some (seen ++ names, result)) ∧
      Replaced env (seen ++ names) ∧ Replacing env (front ++ kept) names result ∧
      kept <:+ result ∧ Settled env (seen ++ names) result := by
  -- On the number of aliases that are not replaced yet.
  induction left generalizing seen front with
  | zero => exact absurd h.length_le (by omega)
  | succ left ih =>
    rcases aliasRound_cases h hfront with
      ⟨names, result, hround, hdone⟩ | ⟨head, front', hround, hreplaced, hfront', hnext⟩
    · refine ⟨names, result, fun rounds hrounds => ?_, hdone⟩
      obtain ⟨rounds, rfl⟩ := Nat.exists_eq_add_one_of_ne_zero (Nat.ne_zero_of_lt hrounds)
      rw [expandAliases, hround]
    · obtain ⟨names, result, hruns, hdone⟩ := ih hreplaced hfront'
        (by rw [List.length_append, List.length_singleton]; omega)
      rw [List.append_assoc, List.singleton_append] at hruns hdone
      refine ⟨head :: names, result, fun rounds hrounds => ?_, hdone.1, hnext _ _ hdone.2.1,
        hdone.2.2⟩
      obtain ⟨rounds, rfl⟩ := Nat.exists_eq_add_one_of_ne_zero (Nat.ne_zero_of_lt hrounds)
      rw [expandAliases, hround]
      exact hruns rounds (Nat.lt_of_succ_lt_succ hrounds)

/-- For every alias table and all words, the loop ends after a round for each name that it replaces
and at most one more.  The result comes from the words by replacing these names in order.  They are
different aliases, so there are at most as many as aliases.  The words behind the first are at the
end of the result, and its first word is no alias or was replaced, unless an alias for nothing
removed the command word. -/
theorem expandAliases_terminates (env : Env) (words : List Text) :
    ∃ seen result,
      (∀ rounds, seen.length < rounds → expandAliases env rounds [] words = some (seen, result)) ∧
      seen.length ≤ env.aliases.entries.length ∧ seen.Nodup ∧ Replacing env words seen result ∧
      words.tail <:+ result ∧ Settled env seen result := by
  cases words with
  | nil =>
    refine ⟨[], [], fun rounds hrounds => ?_, Nat.zero_le _, .nil, .done _, List.suffix_refl _,
      .inl (by simp)⟩
    obtain ⟨rounds, rfl⟩ := Nat.exists_eq_add_one_of_ne_zero (Nat.ne_zero_of_lt hrounds)
    rfl
  | cons head rest =>
    have hstart : Replaced env [] := ⟨.nil, by simp⟩
    obtain ⟨seen, result, hruns, hreplaced, hwords, hkept, hsettled⟩ :=
      expandAliases_settles (env.aliases.entries.length + 1) hstart (List.cons_ne_nil head [])
        (by simp)
    exact ⟨seen, result, hruns, hreplaced.length_le, hreplaced.nodup, hwords, hkept, hsettled⟩

end RacOS.Shell
