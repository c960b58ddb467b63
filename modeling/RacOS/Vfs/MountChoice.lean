import RacOS.Vfs.Mount
import Mathlib.Data.List.Nodup
import Mathlib.Order.Nat
import Mathlib.Tactic.Common

/-!
# The choice of a mount

The mount a path belongs to is the deepest one whose components begin the
components of the path.  `resolve` compares bytes: it takes the longest mount path
that is spelled out at the beginning of the path.  Every mount it considers begins
the path component by component too, but not the other way round, since a walk
skips empty components and those that mean the directory itself.
-/

namespace RacOS.Vfs

/-! ## Components of paths that are put together -/

/-- A list put together at a separator has the pieces of its two parts. -/
theorem splitOn_append_cons {α : Type} [BEq α] [LawfulBEq α] {c : α} (l l' : List α) :
    (l ++ c :: l').splitOn c = l.splitOn c ++ l'.splitOn c := by
  induction l with
  | nil => simp [List.splitOn_cons_eq_if_modifyHead]
  | cons a l ih =>
    rw [List.cons_append, List.splitOn_cons_eq_if_modifyHead,
      List.splitOn_cons_eq_if_modifyHead, ih]
    split
    · rfl
    · obtain ⟨first, more, hsplit⟩ := List.exists_cons_of_ne_nil (List.splitOn_ne_nil c l)
      rw [hsplit]
      rfl

theorem components_append_slash (path rest : List UInt8) :
    components (path ++ slash :: rest) = components path ++ components rest := by
  rw [components, splitOn_append_cons, List.filter_append]
  rfl

theorem components_cons_slash (rest : List UInt8) : components (slash :: rest) = components rest :=
  components_append_slash [] rest

/-- Dropping a slash at the beginning drops no component. -/
theorem components_drop_slash (path : List UInt8) :
    components (if path.head? = some slash then path.drop 1 else path) = components path := by
  split
  · rename_i hslash
    cases path with
    | nil => cases hslash
    | cons c rest =>
      obtain rfl : c = slash := Option.some.inj hslash
      exact (components_cons_slash rest).symm
  · rfl

variable {m : Type → Type} {ι : Type}

namespace MountTable

/-- The path is absolute, and the components of the mount path are its first
ones. -/
def Prefixes (mpath path : List UInt8) : Prop :=
  path.head? = some slash ∧ components mpath <+: components path

/-- A mount path is absolute, and only that of the root ends in a slash. -/
def MountPath (mpath : List UInt8) : Prop :=
  mpath.head? = some slash ∧ (mpath = [slash] ∨ mpath.getLast? ≠ some slash)

/-- The mount paths are distinct. -/
structure Proper (mt : MountTable m ι) : Prop where
  distinct : (mt.mounts.map MountEntry.path).Nodup
  paths : ∀ e ∈ mt.mounts, MountPath e.path

/-! ## Matching by bytes -/

/-- The path is absolute and the mount path is that of the root, or the path is
spelled like the mount path up to its end or to a slash. -/
def SpelledOut (mpath path : List UInt8) : Prop :=
  (mpath = [slash] ∧ ∃ rest, path = slash :: rest) ∨ path = mpath ∨
    ∃ rest, path = mpath ++ slash :: rest

variable {mpath path : List UInt8}

theorem isMatch_iff :
    isMatch mpath path = true ↔ SpelledOut mpath path := by
  unfold isMatch SpelledOut
  split_ifs with hroot heq
  · subst hroot
    cases path with
    | nil => simp
    | cons c rest =>
      refine ⟨fun h => Or.inl ⟨rfl, rest, by simpa using h⟩, ?_⟩
      rintro (⟨-, rest', h⟩ | h | ⟨rest', h⟩)
      · simp [h]
      · simp [h]
      · simp [h]
  · simp [heq]
  · simp only [hroot, heq, false_and, false_or, Bool.and_eq_true, List.isPrefixOf_iff_prefix,
      beq_iff_eq]
    constructor
    · rintro ⟨⟨rest, rfl⟩, hnext⟩
      rw [List.getElem?_append_right le_rfl, Nat.sub_self] at hnext
      cases rest with
      | nil => cases hnext
      | cons c rest =>
        obtain rfl : c = slash := Option.some.inj hnext
        exact ⟨rest, rfl⟩
    · rintro ⟨rest, rfl⟩
      exact ⟨List.prefix_append _ _, by simp⟩

/-- A mount path that matches is spelled out at the beginning of the path. -/
theorem isPrefix_of_isMatch (h : isMatch mpath path = true) :
    mpath <+: path := by
  rcases isMatch_iff.mp h with ⟨rfl, rest, rfl⟩ | rfl | ⟨rest, rfl⟩
  · exact ⟨rest, rfl⟩
  · exact List.prefix_rfl
  · exact List.prefix_append _ _

/-- What follows a mount path that matches has the remaining components. -/
theorem components_of_isMatch (h : isMatch mpath path = true) :
    components path = components mpath ++ components (path.drop mpath.length) := by
  rcases isMatch_iff.mp h with ⟨rfl, rest, rfl⟩ | rfl | ⟨rest, rfl⟩
  · exact components_cons_slash rest
  · simp [components]
  · rw [List.drop_left, components_append_slash, components_cons_slash]

theorem prefixes_of_isMatch (hmount : MountPath mpath)
    (h : isMatch mpath path = true) : Prefixes mpath path := by
  refine ⟨?_, _, (components_of_isMatch h).symm⟩
  obtain ⟨rest, rfl⟩ := isPrefix_of_isMatch h
  rw [List.head?_append, hmount.1]
  rfl

/-- Of two mount paths that match, the shorter one matches the longer one. -/
theorem isMatch_of_length_le {mpath mpath' path : List UInt8}
    (h : isMatch mpath path = true) (h' : isMatch mpath' path = true)
    (hle : mpath.length ≤ mpath'.length) : isMatch mpath mpath' = true := by
  obtain ⟨more, rfl⟩ := List.prefix_of_prefix_length_le (isPrefix_of_isMatch h)
    (isPrefix_of_isMatch h') hle
  obtain ⟨rest, rfl⟩ := isPrefix_of_isMatch h'
  refine isMatch_iff.mpr ?_
  rcases isMatch_iff.mp h with ⟨rfl, -⟩ | heq | ⟨rest', heq⟩
  · exact Or.inl ⟨rfl, more, rfl⟩
  · rw [List.append_assoc, List.append_right_eq_self] at heq
    obtain rfl := (List.append_eq_nil_iff.mp heq).1
    exact Or.inr (Or.inl (List.append_nil _))
  · rw [List.append_assoc, List.append_cancel_left_eq] at heq
    cases more with
    | nil => exact Or.inr (Or.inl (List.append_nil _))
    | cons c more =>
      obtain ⟨rfl, -⟩ := List.cons.inj heq
      exact Or.inr (Or.inr ⟨more, rfl⟩)

/-! ## What is chosen -/

/-- The longer of the best match so far and a further one. -/
def longer (best : Option (ℕ × ℕ)) (len i : ℕ) : ℕ × ℕ :=
  match best with
  | some (bestLen, j) => if bestLen < len then (len, i) else (bestLen, j)
  | none => (len, i)

theorem longer_cases (best : Option (ℕ × ℕ)) (len i : ℕ) :
    longer best len i = (len, i) ∨ best = some (longer best len i) := by
  cases best with
  | none => exact Or.inl rfl
  | some b =>
    simp only [longer]
    split_ifs
    · exact Or.inl rfl
    · exact Or.inr rfl

theorem le_longer (best : Option (ℕ × ℕ)) (len i : ℕ) :
    len ≤ (longer best len i).1 ∧ ∀ b, best = some b → b.1 ≤ (longer best len i).1 := by
  cases best with
  | none => exact ⟨Nat.le_refl _, nofun⟩
  | some b =>
    simp only [longer]
    split_ifs with hlt
    · exact ⟨Nat.le_refl _, fun b' h => by cases h; exact Nat.le_of_lt hlt⟩
    · exact ⟨Nat.le_of_not_lt hlt, fun b' h => by cases h; exact Nat.le_refl _⟩

theorem bestMount_cons (path mpath : List UInt8) (i : ℕ) (rest : List (List UInt8 × ℕ))
    (best : Option (ℕ × ℕ)) :
    bestMount path ((mpath, i) :: rest) best =
      bestMount path rest
        (if isMatch mpath path then some (longer best mpath.length i) else best) := by
  cases best with
  | none => simp only [bestMount, longer]; split_ifs <;> rfl
  | some b => simp only [bestMount, longer]; split_ifs <;> rfl

/-- The loop ends with a match that is longest among those it has seen, if it has
seen one. -/
theorem bestMount_spec (path : List UInt8) (l : List (List UInt8 × ℕ)) (best : Option (ℕ × ℕ)) :
    match bestMount path l best with
    | some (len, i) =>
      (best = some (len, i) ∨
        ∃ mpath, (mpath, i) ∈ l ∧ isMatch mpath path = true ∧ mpath.length = len) ∧
      (∀ b, best = some b → b.1 ≤ len) ∧ ∀ x ∈ l, isMatch x.1 path = true → x.1.length ≤ len
    | none => best = none ∧ ∀ x ∈ l, isMatch x.1 path = false := by
  induction l generalizing best with
  | nil =>
    cases best with
    | none => exact ⟨rfl, nofun⟩
    | some b => exact ⟨Or.inl rfl, fun b' h => by cases h; exact le_rfl, nofun⟩
  | cons head rest ih =>
    obtain ⟨mpath, j⟩ := head
    rw [bestMount_cons]
    by_cases hmatch : isMatch mpath path = true
    · rw [if_pos hmatch]
      have hrest := ih (some (longer best mpath.length j))
      cases hr : bestMount path rest (some (longer best mpath.length j)) with
      | none =>
        rw [hr] at hrest
        exact absurd hrest.1 (Option.some_ne_none _)
      | some b =>
        rw [hr] at hrest
        obtain ⟨hfrom, hbest, hall⟩ := hrest
        obtain ⟨hlen, hle⟩ := le_longer best mpath.length j
        have hlonger := hbest _ rfl
        refine ⟨?_, fun b' hb' => (hle b' hb').trans hlonger,
          List.forall_mem_cons.mpr ⟨fun _ => hlen.trans hlonger, hall⟩⟩
        rcases hfrom with hfrom | ⟨mp, hmem, h⟩
        · have hb := Option.some.inj hfrom
          rcases longer_cases best mpath.length j with hcase | hcase
          · obtain ⟨hlen', rfl⟩ := Prod.mk.inj (hcase.symm.trans hb)
            exact Or.inr ⟨mpath, List.mem_cons_self, hmatch, hlen'⟩
          · exact Or.inl (hcase.trans hfrom)
        · exact Or.inr ⟨mp, List.mem_cons_of_mem _ hmem, h⟩
    · rw [if_neg hmatch]
      have hrest := ih best
      cases hr : bestMount path rest best with
      | none =>
        rw [hr] at hrest
        exact ⟨hrest.1, List.forall_mem_cons.mpr
          ⟨Bool.eq_false_iff.mpr hmatch, hrest.2⟩⟩
      | some b =>
        rw [hr] at hrest
        obtain ⟨hfrom, hbest, hall⟩ := hrest
        refine ⟨hfrom.imp_right ?_, hbest, List.forall_mem_cons.mpr
          ⟨fun h => absurd h hmatch, hall⟩⟩
        exact fun ⟨mp, hmem, h⟩ => ⟨mp, List.mem_cons_of_mem _ hmem, h⟩

/-- The mount that is chosen: it matches, and no other one that matches has a longer
path. -/
structure Chosen (mt : MountTable m ι) (path : List UInt8) (e : MountEntry m ι) : Prop where
  mem : e ∈ mt.mounts
  isMatch : isMatch e.path path = true
  longest : ∀ e' ∈ mt.mounts, MountTable.isMatch e'.path path = true →
    e'.path.length ≤ e.path.length

/-- What a path is in the mount it belongs to. -/
def remainder (mpath path : List UInt8) : List UInt8 :=
  let rest := path.drop mpath.length
  if rest.head? = some slash then rest.drop 1 else rest

/-- The mount and the rest of the path that `resolve` gives. -/
def answer (mt : MountTable m ι) (path : List UInt8) : Option (MountEntry m ι × List UInt8) :=
  (mt.resolve path).map Prod.snd

/-- The answer is the chosen mount, or no mount matches. -/
theorem answer_cases (mt : MountTable m ι) (path : List UInt8) :
    (∃ e, mt.Chosen path e ∧ mt.answer path = some (e, remainder e.path path)) ∨
      (∀ e ∈ mt.mounts, isMatch e.path path = false) ∧ mt.answer path = none := by
  have hspec := bestMount_spec path (mt.mounts.map MountEntry.path).zipIdx none
  have hmem {e : MountEntry m ι} (he : e ∈ mt.mounts) :
      ∃ i, (e.path, i) ∈ (mt.mounts.map MountEntry.path).zipIdx := by
    obtain ⟨i, hi, rfl⟩ := List.mem_iff_getElem.mp he
    exact ⟨i, List.mem_zipIdx_iff_getElem?.mpr (by simp [hi])⟩
  cases hbest : bestMount path (mt.mounts.map MountEntry.path).zipIdx none with
  | none =>
    rw [hbest] at hspec
    refine Or.inr ⟨fun e he => ?_, by simp [answer, resolve, hbest]⟩
    obtain ⟨i, hi⟩ := hmem he
    exact hspec.2 _ hi
  | some b =>
    rw [hbest] at hspec
    obtain ⟨hfrom, -, hall⟩ := hspec
    obtain ⟨mpath, hi, hmatch, hlen⟩ := hfrom.resolve_left nofun
    have hget := List.mem_zipIdx_iff_getElem?.mp hi
    rw [List.getElem?_map, Option.map_eq_some_iff] at hget
    obtain ⟨e, he, rfl⟩ := hget
    refine Or.inl ⟨e, ⟨List.mem_of_getElem? he, hmatch, fun e' he' hmatch' => ?_⟩, ?_⟩
    · obtain ⟨i', hi'⟩ := hmem he'
      exact (hall _ hi' hmatch').trans hlen.ge
    · have he' : mt.mounts[b.2]? = some e := he
      simp [answer, resolve, hbest, he', remainder, hlen]

variable {e e' : MountEntry m ι} {mt mt' : MountTable m ι}

/-- Distinct paths make the chosen mount unique. -/
theorem Chosen.unique (hdistinct : (mt.mounts.map MountEntry.path).Nodup) (h : mt.Chosen path e)
    (h' : mt.Chosen path e') : e = e' := by
  have hlen : e.path.length = e'.path.length :=
    Nat.le_antisymm (h'.longest e h.mem h.isMatch) (h.longest e' h'.mem h'.isMatch)
  have hpath : e.path = e'.path :=
    (List.prefix_of_prefix_length_le (isPrefix_of_isMatch h.isMatch)
      (isPrefix_of_isMatch h'.isMatch) hlen.le).eq_of_length hlen
  exact List.inj_on_of_nodup_map hdistinct h.mem h'.mem hpath

/-- The chosen mount has at least as many components as any other that matches. -/
theorem Chosen.length_components_le (h : mt.Chosen path e) (hmem : e' ∈ mt.mounts)
    (hmatch : MountTable.isMatch e'.path path = true) :
    (components e'.path).length ≤ (components e.path).length := by
  have hmatch' := isMatch_of_length_le hmatch h.isMatch (h.longest e' hmem hmatch)
  rw [components_of_isMatch hmatch', List.length_append]
  exact Nat.le_add_right _ _

theorem components_remainder (h : isMatch mpath path = true) :
    components path = components mpath ++ components (remainder mpath path) := by
  rw [remainder, components_drop_slash]
  exact components_of_isMatch h

/-! ## The table that is changed -/

/-- The two tables have the same mounts except at one path. -/
def SameElsewhere (q : List UInt8) (mt mt' : MountTable m ι) : Prop :=
  ∀ e : MountEntry m ι, e.path ≠ q → (e ∈ mt.mounts ↔ e ∈ mt'.mounts)

theorem Chosen.of_sameElsewhere {q path : List UInt8}
    (hsame : SameElsewhere q mt mt') (h : mt.Chosen path e) (h' : mt'.Chosen path e')
    (hq : e.path ≠ q) (hq' : e'.path ≠ q) : mt.Chosen path e' := by
  refine ⟨(hsame e' hq').mpr h'.mem, h'.isMatch, fun e₁ hmem hmatch => ?_⟩
  exact (h.longest e₁ hmem hmatch).trans
    (h'.longest e ((hsame e hq).mp h.mem) h.isMatch)

/-- An answer is changed only into the mount at the path or away from it. -/
theorem answer_eq_of_sameElsewhere {q path : List UInt8}
    (hdistinct : (mt.mounts.map MountEntry.path).Nodup) (hsame : SameElsewhere q mt mt')
    (h : ∀ r, mt.answer path = some r → r.1.path ≠ q)
    (h' : ∀ r, mt'.answer path = some r → r.1.path ≠ q) : mt.answer path = mt'.answer path := by
  rcases mt.answer_cases path with ⟨e, hchosen, hanswer⟩ | ⟨hnone, hanswer⟩
  · rcases mt'.answer_cases path with ⟨e', hchosen', hanswer'⟩ | ⟨hnone', hanswer'⟩
    · have heq := hchosen.unique hdistinct
        (hchosen.of_sameElsewhere hsame hchosen' (h _ hanswer) (h' _ hanswer'))
      rw [hanswer, hanswer', heq]
    · have hmem := (hsame e (h _ hanswer)).mp hchosen.mem
      have hmatch := hnone' e hmem
      rw [hchosen.isMatch] at hmatch
      cases hmatch
  · rcases mt'.answer_cases path with ⟨e', hchosen', hanswer'⟩ | ⟨hnone', hanswer'⟩
    · have hmem := (hsame e' (h' _ hanswer')).mpr hchosen'.mem
      have hmatch := hnone e' hmem
      rw [hchosen'.isMatch] at hmatch
      cases hmatch
    · rw [hanswer, hanswer']

theorem sameElsewhere_mount (mt : MountTable m ι) (q : List UInt8) (fs : Filesystem m ι) :
    SameElsewhere q mt (mt.mount q fs) := by
  intro e he
  unfold mount
  cases hfind : mt.mounts.findIdx? (·.path = q) with
  | none =>
    simp only [List.mem_append, List.mem_singleton]
    refine ⟨Or.inl, fun h => h.resolve_right ?_⟩
    rintro rfl
    exact he rfl
  | some i =>
    obtain ⟨hi, hpath, -⟩ := List.findIdx?_eq_some_iff_getElem.mp hfind
    simp only [List.mem_iff_getElem?, List.getElem?_modify]
    refine exists_congr fun j => ?_
    by_cases hj : i = j
    · subst hj
      have hpath : mt.mounts[i].path = q := by simpa using hpath
      simp only [List.getElem?_eq_getElem hi, if_true, Option.map_eq_map, Option.map_some,
        Option.some.injEq]
      constructor
      · rintro rfl
        exact absurd hpath he
      · rintro rfl
        exact absurd hpath he
    · simp [hj]

theorem sameElsewhere_umount {q : List UInt8}
    (h : mt.umount q = .ok mt') : SameElsewhere q mt mt' := by
  intro e he
  unfold umount at h
  split_ifs at h
  cases hfind : mt.mounts.findIdx? (·.path = q) with
  | none => simp [hfind] at h
  | some i =>
    obtain ⟨hi, hpath, -⟩ := List.findIdx?_eq_some_iff_getElem.mp hfind
    simp only [hfind, Except.ok.injEq] at h
    subst h
    refine ⟨fun hmem => ?_, fun hmem => List.mem_of_mem_eraseIdx hmem⟩
    obtain ⟨j, hj⟩ := List.mem_iff_getElem?.mp hmem
    refine List.mem_eraseIdx_iff_getElem?.mpr ⟨j, ?_, hj⟩
    rintro rfl
    rw [List.getElem?_eq_getElem hi] at hj
    cases hj
    exact he (by simpa using hpath)

/-! ## Components and bytes -/

/-- `resolve` gives the deepest of the mounts whose components begin the path, with
exactly the remaining components, and nothing if and only if there is none. -/
def Right (mt : MountTable m ι) (path : List UInt8) : Prop :=
  match mt.resolve path with
  | some (i, e, rest) =>
    mt.mounts[i]? = some e ∧ Prefixes e.path path ∧
      (∀ e' ∈ mt.mounts, Prefixes e'.path path →
        (components e'.path).length ≤ (components e.path).length) ∧
      components path = components e.path ++ components rest
  | none => ∀ e ∈ mt.mounts, ¬Prefixes e.path path

/-- Mounting, replacing and unmounting at another path than that of the answer, before
and after, leave the answer as it is. -/
def Stable (mt : MountTable m ι) (path : List UInt8) : Prop :=
  ∀ (q : List UInt8) (mt' : MountTable m ι), (mt.umount q = .ok mt' ∨ ∃ fs, mt' = mt.mount q fs) →
    (∀ r, mt.answer path = some r → r.1.path ≠ q) → (∀ r, mt'.answer path = some r → r.1.path ≠ q) →
    mt'.answer path = mt.answer path

/-- Every mount whose components begin the path is at most as deep as one whose path is
spelled out at the beginning of the path. -/
def Spelled (mt : MountTable m ι) (path : List UInt8) : Prop :=
  ∀ e ∈ mt.mounts, Prefixes e.path path →
    ∃ e' ∈ mt.mounts, SpelledOut e'.path path ∧
      (components e.path).length ≤ (components e'.path).length

theorem resolve_of_answer {rest : List UInt8} (h : mt.answer path = some (e, rest)) :
    ∃ i, mt.resolve path = some (i, e, rest) ∧ mt.mounts[i]? = some e := by
  obtain ⟨⟨i, r⟩, hresolve, rfl⟩ := Option.map_eq_some_iff.mp h
  refine ⟨i, hresolve, ?_⟩
  simp only [resolve, Option.bind_eq_bind, Option.pure_def, Option.bind_eq_some_iff,
    Option.some.injEq, Prod.mk.injEq] at hresolve
  obtain ⟨b, -, entry, hentry, rfl, rfl, -⟩ := hresolve
  exact hentry

theorem resolve_eq_none_of_answer (h : mt.answer path = none) : mt.resolve path = none :=
  Option.map_eq_none_iff.mp h

theorem spelled_of_right (h : mt.Right path) : mt.Spelled path := by
  intro e he hprefixes
  rcases mt.answer_cases path with ⟨e', hchosen, hanswer⟩ | ⟨-, hanswer⟩
  · obtain ⟨i, hresolve, -⟩ := resolve_of_answer hanswer
    rw [Right, hresolve] at h
    exact ⟨e', hchosen.mem, isMatch_iff.mp hchosen.isMatch, h.2.2.1 e he hprefixes⟩
  · rw [Right, resolve_eq_none_of_answer hanswer] at h
    exact absurd hprefixes (h e he)

theorem right_of_spelled (hproper : mt.Proper) (h : mt.Spelled path) : mt.Right path := by
  rcases mt.answer_cases path with ⟨e, hchosen, hanswer⟩ | ⟨hnone, hanswer⟩
  · obtain ⟨i, hresolve, hi⟩ := resolve_of_answer hanswer
    rw [Right, hresolve]
    refine ⟨hi, prefixes_of_isMatch (hproper.paths e hchosen.mem) hchosen.isMatch,
      fun e' he' hprefixes => ?_, components_remainder hchosen.isMatch⟩
    obtain ⟨e₁, he₁, hmatch, hle⟩ := h e' he' hprefixes
    exact hle.trans (hchosen.length_components_le he₁ (isMatch_iff.mpr hmatch))
  · rw [Right, resolve_eq_none_of_answer hanswer]
    intro e he hprefixes
    obtain ⟨e₁, he₁, hmatch, -⟩ := h e he hprefixes
    rw [← isMatch_iff, hnone e₁ he₁] at hmatch
    cases hmatch

theorem stable_of_distinct (hdistinct : (mt.mounts.map MountEntry.path).Nodup) :
    mt.Stable path := by
  rintro q mt' hchange h h'
  have hsame : SameElsewhere q mt mt' := by
    rcases hchange with humount | ⟨fs, rfl⟩
    · exact sameElsewhere_umount humount
    · exact sameElsewhere_mount mt q fs
  exact (answer_eq_of_sameElsewhere hdistinct hsame h h').symm

/-- `resolve` is right about a path, and stays so when other mounts change, exactly if
the mount it belongs to is spelled out at its beginning. -/
theorem resolve_right_iff (hproper : mt.Proper) (path : List UInt8) :
    mt.Right path ∧ mt.Stable path ↔ mt.Spelled path :=
  ⟨fun h => spelled_of_right h.1,
    fun h => ⟨right_of_spelled hproper h, stable_of_distinct hproper.distinct⟩⟩

/-- A filesystem that has nothing but its root. -/
def bareFilesystem : Filesystem (Except VfsError) ℕ where
  rootInode := 0
  getInode _ := .error .notFound
  metadata _ := .error .notFound
  lookup _ _ := .error .notFound

/-- Filesystems at the root and at `/var`. -/
def rootAndVar : MountTable (Except VfsError) ℕ where
  mounts := [⟨[47], bareFilesystem⟩, ⟨[47, 118, 97, 114], bareFilesystem⟩]

theorem proper_rootAndVar : rootAndVar.Proper where
  distinct := by decide
  paths := by
    rintro e (_ | ⟨_, _ | ⟨_, ⟨⟩⟩⟩)
    · exact ⟨rfl, Or.inl rfl⟩
    · exact ⟨rfl, Or.inr (by decide)⟩

/-- The path `/var/x` is resolved into the mount at `/var`. -/
theorem resolve_right_iff_var :
    rootAndVar.Right [47, 118, 97, 114, 47, 120] ∧
      rootAndVar.Stable [47, 118, 97, 114, 47, 120] := by
  refine (resolve_right_iff proper_rootAndVar _).mpr ?_
  rintro e he -
  refine ⟨⟨[47, 118, 97, 114], bareFilesystem⟩, by simp [rootAndVar],
    Or.inr (Or.inr ⟨[120], rfl⟩), ?_⟩
  rcases he with _ | ⟨_, _ | ⟨_, ⟨⟩⟩⟩
  · decide
  · exact le_rfl

/-- The path `//var/x` has the components of `/var/x`, and is resolved into the mount at
the root. -/
theorem not_right_of_doubled_slash :
    rootAndVar.Proper ∧ components [47, 47, 118, 97, 114, 47, 120] = [[118, 97, 114], [120]] ∧
      ¬rootAndVar.Right [47, 47, 118, 97, 114, 47, 120] := by
  refine ⟨proper_rootAndVar, by decide, fun h => ?_⟩
  obtain ⟨e, he, hmatch, hle⟩ := spelled_of_right h ⟨[47, 118, 97, 114], bareFilesystem⟩
    (by simp [rootAndVar]) ⟨rfl, by decide⟩
  rcases he with _ | ⟨_, _ | ⟨_, ⟨⟩⟩⟩
  · exact absurd hle (by decide)
  · exact absurd (isMatch_iff.mpr hmatch) (by decide)

end MountTable

end RacOS.Vfs
