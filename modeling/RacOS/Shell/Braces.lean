import RacOS.Shell.Expand

/-!
# Braces that stay as they are

What the scanners behind a brace list have in common: the group that is cut out starts with the
brace that is found, and it is a list if and only if there is a comma in it, at any depth.  The
words of a list have fewer opening braces than the text they are made of.
-/

namespace RacOS.Shell

variable {text : Text}

/-- The brace that is looked at, if there is one, opens a group that can be cut out and that has no
comma in it. -/
def LiteralBraces (text : Text) : Prop :=
  ∀ pos, findBraceExpansion text = some pos →
    ∃ before content after, extractBrace text pos = some (before, content, after) ∧ ',' ∉ content

/-- The group of the brace that is looked at has a comma. -/
def HasBraceList (text : Text) : Prop :=
  ∃ pos before content after, findBraceExpansion text = some pos ∧
    extractBrace text pos = some (before, content, after) ∧ ',' ∈ content

/-- What is found is an opening brace. -/
theorem findBraceExpansion_some {pos : ℕ} (h : findBraceExpansion text = some pos) :
    (text.drop pos).head? = some '{' := by
  suffices hgo : ∀ (s : Text) depth inQuote i, findBraceExpansion.go depth inQuote i s = some pos →
      i ≤ pos ∧ (s.drop (pos - i)).head? = some '{' from (hgo text 0 false 0 h).2
  intro s
  induction s with
  | nil =>
    intro depth inQuote i hgo
    cases hgo
  | cons c s ih =>
    intro depth inQuote i hgo
    have hrest : i + 1 ≤ pos ∧ (s.drop (pos - (i + 1))).head? = some '{' →
        i ≤ pos ∧ ((c :: s).drop (pos - i)).head? = some '{' := by
      rintro ⟨hle, hhead⟩
      refine ⟨by omega, ?_⟩
      rw [show pos - i = pos - (i + 1) + 1 by omega, List.drop_succ_cons]
      exact hhead
    rw [findBraceExpansion.go] at hgo
    split_ifs at hgo with hescape hopen hdepth
    · exact hrest (ih _ _ _ hgo)
    · obtain rfl := Option.some.inj hgo
      exact ⟨le_rfl, by rw [Nat.sub_self, hopen.1]; rfl⟩
    · exact hrest (ih _ _ _ hgo)
    · exact hrest (ih _ _ _ hgo)
    · exact hrest (ih _ _ _ hgo)

theorem findBraceExpansion_none (htext : '{' ∉ text) : findBraceExpansion text = none := by
  cases h : findBraceExpansion text with
  | none => rfl
  | some pos =>
    have hmem := List.mem_of_mem_head? (findBraceExpansion_some h)
    exact absurd (List.mem_of_mem_drop hmem) htext

theorem literalBraces_of_notMem (htext : '{' ∉ text) : LiteralBraces text := by
  intro pos hpos
  rw [findBraceExpansion_none htext] at hpos
  cases hpos

/-! ## Alternatives -/

variable {content current : Text} {alternatives : List Text} {depth : ℕ}

/-- No alternative has more opening braces than there are. -/
theorem braceAlternatives_count {n : ℕ} (halternatives : ∀ x ∈ alternatives, x.count '{' ≤ n)
    (hn : current.count '{' + content.count '{' ≤ n) :
    (∀ x ∈ (braceAlternatives depth alternatives current content).1, x.count '{' ≤ n) ∧
      (braceAlternatives depth alternatives current content).2.count '{' ≤ n := by
  fun_induction braceAlternatives depth alternatives current content with
  | case1 => exact ⟨halternatives, by simpa using hn⟩
  | case2 depth alternatives current rest ih =>
    exact ih halternatives (by simp at hn ⊢; omega)
  | case3 alternatives current rest hopen ih =>
    exact ih halternatives (by rwa [List.count_cons_of_ne hopen] at hn)
  | case4 alternatives current rest depth hopen ih =>
    refine ih halternatives ?_
    rw [List.count_cons_of_ne hopen] at hn
    simpa [List.count_append] using hn
  | case5 depth alternatives current c rest hopen hclose hcomma hpush ih =>
    rw [List.count_cons_of_ne hopen] at hn
    refine ih ?_ (by simp; omega)
    simp only [List.mem_append, List.mem_singleton]
    rintro x (hx | rfl)
    · exact halternatives x hx
    · omega
  | case6 depth alternatives current c rest hopen hclose hcomma hpush ih =>
    exact ih halternatives (by rwa [List.count_cons_of_ne hopen] at hn)
  | case7 depth alternatives current c rest hopen hclose hcomma ih =>
    refine ih halternatives ?_
    rw [List.count_cons_of_ne hopen] at hn
    simpa [List.count_append, hopen] using hn

/-- Alternatives come from commas. -/
theorem braceAlternatives_of_notMem (hcontent : ',' ∉ content) :
    (braceAlternatives depth alternatives current content).1 = alternatives := by
  fun_induction braceAlternatives depth alternatives current content with
  | case1 => rfl
  | case5 depth alternatives current c rest _ _ hcomma => simp [hcomma.1] at hcontent
  | case6 depth alternatives current c rest _ _ hcomma => simp [hcomma.1] at hcontent
  | case2 | case3 | case4 | case7 =>
    rename_i ih
    exact ih fun h => hcontent (List.mem_cons_of_mem _ h)

/-- Once there is something it is kept, and a comma makes something. -/
theorem braceAlternatives_ne_nil (h : current ≠ [] ∨ alternatives ≠ [] ∨ ',' ∈ content) :
    (braceAlternatives depth alternatives current content).2 ≠ [] ∨
      (braceAlternatives depth alternatives current content).1 ≠ [] := by
  fun_induction braceAlternatives depth alternatives current content with
  | case1 => simpa using h
  | case2 _ _ _ _ ih => exact ih (.inl (by simp))
  | case3 _ _ _ _ ih => exact ih (by simpa using h)
  | case4 _ _ _ _ _ ih => exact ih (.inl (by simp))
  | case5 _ _ _ _ _ _ _ _ _ ih => exact ih (.inr (.inl (by simp)))
  | case6 _ _ _ _ _ _ _ _ hpush ih => exact ih (.inr (.inl (not_or.mp hpush).2))
  | case7 _ _ _ _ _ _ _ _ ih => exact ih (.inl (by simp))

/-- Text without a comma is no list, and text with one is. -/
theorem parseBraceExpansion_eq_none_iff : parseBraceExpansion content = none ↔ ',' ∉ content := by
  unfold parseBraceExpansion
  dsimp only
  by_cases hcomma : ',' ∈ content
  · have hsome : (braceAlternatives 0 [] [] content).2 ≠ [] ∨
        (braceAlternatives 0 [] [] content).1 ≠ [] :=
      braceAlternatives_ne_nil (.inr (.inr hcomma))
    rw [if_pos hsome, if_neg (by simp), if_neg (by simp [hcomma])]
    simp [hcomma]
  · rw [braceAlternatives_of_notMem hcomma]
    split_ifs <;> simp_all

theorem parseBraceExpansion_count {x : Text} (h : parseBraceExpansion content = some alternatives)
    (hx : x ∈ alternatives) : x.count '{' ≤ content.count '{' := by
  obtain ⟨hall, hcurrent⟩ : (∀ x ∈ (braceAlternatives 0 [] [] content).1,
      x.count '{' ≤ content.count '{') ∧ _ := braceAlternatives_count (by simp) (by simp)
  unfold parseBraceExpansion at h
  dsimp only at h
  split_ifs at h
  all_goals
    obtain rfl := Option.some.inj h
  · rcases List.mem_append.mp hx with hx | hx
    · exact hall x hx
    · rwa [List.mem_singleton.mp hx]
  · exact hall x hx

/-! ## Groups -/

/-- The parts around and in a group have fewer opening braces than the text. -/
theorem extractBrace_count {pos : ℕ} (hpos : findBraceExpansion text = some pos)
    {before after : Text} (h : extractBrace text pos = some (before, content, after)) :
    before.count '{' + content.count '{' + after.count '{' < text.count '{' := by
  obtain ⟨group, hgroup⟩ : ∃ group, text.drop pos = '{' :: group := by
    cases hdrop : text.drop pos with
    | nil => simpa [hdrop] using findBraceExpansion_some hpos
    | cons c group => exact ⟨group, by simpa [hdrop] using findBraceExpansion_some hpos⟩
  have htext : text.count '{' = (text.take pos).count '{' + ('{' :: group).count '{' := by
    rw [← hgroup, ← List.count_append, List.take_append_drop]
  unfold extractBrace at h
  rw [hgroup] at h
  dsimp only at h
  split at h
  · cases h
  · rename_i len _
    obtain ⟨rfl, rfl, rfl⟩ := Option.some.inj h |> Prod.mk.inj |>.imp_right Prod.mk.inj
    have hsplit : group.count '{' = (group.take len).count '{' + (group.drop len).count '{' := by
      rw [← List.count_append, List.take_append_drop]
    have hrest : (group.drop (len + 1)).count '{' ≤ (group.drop len).count '{' :=
      (List.drop_sublist_drop_left group (Nat.le_succ len)).count_le _
    rw [List.count_cons_self] at htext
    simp only [List.drop_succ_cons, List.drop_zero]
    omega

theorem braceWords_eq_none_iff : braceWords text = some none ↔ LiteralBraces text := by
  unfold braceWords LiteralBraces
  cases hpos : findBraceExpansion text with
  | none => simp
  | some pos =>
    dsimp only
    cases hgroup : extractBrace text pos with
    | none => simp [hgroup]
    | some group =>
      obtain ⟨before, content, after⟩ := group
      simp [hgroup, parseBraceExpansion_eq_none_iff]

theorem braceWords_some {words : List Text} (h : braceWords text = some (some words)) :
    ∃ pos before content after alternatives, findBraceExpansion text = some pos ∧
      extractBrace text pos = some (before, content, after) ∧
      parseBraceExpansion content = some alternatives ∧
      words = alternatives.map fun alt => before ++ alt ++ after := by
  unfold braceWords at h
  cases hpos : findBraceExpansion text with
  | none =>
    rw [hpos] at h
    cases h
  | some pos =>
    rw [hpos] at h
    obtain ⟨⟨before, content, after⟩, hgroup, h⟩ := Option.bind_eq_some_iff.mp h
    obtain ⟨alternatives, hparse, rfl⟩ := Option.map_eq_some_iff.mp (Option.some.inj h)
    exact ⟨pos, before, content, after, alternatives, rfl, hgroup, hparse, rfl⟩

theorem hasBraceList_of_braceWords {words : List Text} (h : braceWords text = some (some words)) :
    HasBraceList text := by
  obtain ⟨pos, before, content, after, alternatives, hpos, hgroup, hparse, -⟩ := braceWords_some h
  refine ⟨pos, before, content, after, hpos, hgroup, ?_⟩
  by_contra hcomma
  rw [parseBraceExpansion_eq_none_iff.mpr hcomma] at hparse
  cases hparse

theorem braceWords_count {words : List Text} (h : braceWords text = some (some words)) {w : Text}
    (hw : w ∈ words) : w.count '{' < text.count '{' := by
  obtain ⟨pos, before, content, after, alternatives, hpos, hgroup, hparse, rfl⟩ := braceWords_some h
  obtain ⟨x, hx, rfl⟩ := List.mem_map.mp hw
  have hcount := extractBrace_count hpos hgroup
  have hle := parseBraceExpansion_count hparse hx
  rw [List.count_append, List.count_append]
  omega

end RacOS.Shell
