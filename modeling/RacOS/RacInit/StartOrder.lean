import RacOS.Lib.Kahn

/-!
# The start order of services

Units of the init system with the dependencies they name, and
`resolve_start_order` of `init/src/engine.rs`.  A unit starts after the units
that it names in `After=` or `Requires=`; names of no unit, repeated names and
its own name do not count.  Units that cannot be ordered, because they are on a
cycle or depend on one, are reported apart.
-/

namespace RacOS.RacInit

/-! ## Units -/

inductive UnitState
  | loaded
  | starting
  | active
  | reloading
  | stopping
  | stopped
  | failed
  deriving DecidableEq

inductive RestartPolicy
  | no
  | onFailure
  | onAbnormal
  | always
  deriving DecidableEq

inductive ServiceType
  | simple
  | oneshot
  | forking
  deriving DecidableEq

inductive UnitType
  | service
  | target
  | timer
  | mount
  | device
  deriving DecidableEq

/-- A parsed unit file, with the fields that the engine reads and the other two
lists of dependencies, which it does not. -/
structure UnitFile where
  name : String
  unitType : UnitType
  state : UnitState
  requires : List String
  wants : List String := []
  after : List String
  before : List String := []
  serviceType : ServiceType
  execStart : String
  restart : RestartPolicy
  deriving DecidableEq

/-! ## Resolving the order -/

/-- The units in start order, and the ones that are left out. -/
structure ResolveResult where
  order : List ℕ
  cycle : List ℕ
  deriving DecidableEq

def findUnit (units : List UnitFile) (name : String) : Option ℕ :=
  units.findIdx? fun u => u.name == name

/-- The units that unit `i` must start after, from the names it lists. -/
def dependencies (units : List UnitFile) (i : ℕ) (names : List String) : List ℕ :=
  names.foldl
    (fun deps name =>
      match findUnit units name with
      | some j => if i ≠ j ∧ j ∉ deps then deps ++ [j] else deps
      | none => deps) []

/-- `depends_on` of `resolve_start_order`. -/
def dependsOn (units : List UnitFile) (i : ℕ) : List ℕ :=
  match units[i]? with
  | some unit => dependencies units i (unit.after ++ unit.requires)
  | none => []

/-- The edges backwards: the units that wait for each unit. -/
def reverseEdges (deps : ℕ → List ℕ) (vertices : List ℕ) : ℕ → List ℕ :=
  vertices.foldl
    (fun enables i =>
      (deps i).foldl
        (fun enables j => Function.update enables j (enables j ++ [i])) enables)
    fun _ => []

/-- The counts before the first unit is taken, and the units that wait for
none.  The last of them is on top of the stack. -/
def initialSearch (units : List UnitFile) : Kahn.State where
  inDegree i := (dependsOn units i).length
  ready := ((List.range units.length).filter
    fun i => (dependsOn units i).length = 0).reverse
  order := []

def resolveStartOrder (units : List UnitFile) : ResolveResult :=
  let n := units.length
  if n = 0 then ⟨[], []⟩
  else
    -- every unit is taken from the stack at most once
    let s := Kahn.search (reverseEdges (dependsOn units) (List.range n)) n
      (initialSearch units)
    { order := s.order
      cycle := if s.order.length < n then
        (List.range n).filter fun i => s.inDegree i > 0
      else [] }

/-! ## The dependencies -/

/-- Unit `i` names unit `j`, which is not itself, as a dependency. -/
def Names (units : List UnitFile) (i j : ℕ) : Prop :=
  i ≠ j ∧ ∃ u v, units[i]? = some u ∧ units[j]? = some v ∧ v.name ∈ u.after ++ u.requires

variable {units : List UnitFile}

theorem findUnit_lt {name : String} {j : ℕ} (h : findUnit units name = some j) :
    ∃ v, units[j]? = some v ∧ v.name = name := by
  obtain ⟨hlt, hname, -⟩ := List.findIdx?_eq_some_iff_getElem.mp h
  exact ⟨units[j], List.getElem?_eq_getElem hlt, by simpa using hname⟩

/-- Distinct names find their own units. -/
theorem findUnit_of_name (hnames : (units.map (·.name)).Nodup) {j : ℕ} {v : UnitFile}
    (hv : units[j]? = some v) : findUnit units v.name = some j := by
  cases hfind : findUnit units v.name with
  | none =>
    have := List.findIdx?_eq_none_iff.mp hfind v (List.mem_of_getElem? hv)
    simp at this
  | some k =>
    obtain ⟨w, hw, hname⟩ := findUnit_lt hfind
    have hk : (units.map (·.name))[k]? = some v.name := by
      rw [List.getElem?_map, hw]
      exact congrArg some hname
    have hj : (units.map (·.name))[j]? = some v.name := by
      rw [List.getElem?_map, hv]
      rfl
    have hlt : k < (units.map (·.name)).length :=
      (List.getElem?_eq_some_iff.mp hk).1
    exact congrArg some ((List.getElem?_inj hlt hnames).mp (hk.trans hj.symm))

/-- The loop over the names collects, without repetition, the units other than
`i` that are found under them. -/
theorem dependencies_spec (units : List UnitFile) (i : ℕ) (names : List String) :
    (dependencies units i names).Nodup ∧
      ∀ j, j ∈ dependencies units i names ↔
        i ≠ j ∧ ∃ name ∈ names, findUnit units name = some j := by
  induction names using List.reverseRecOn with
  | nil => simp [dependencies]
  | append_singleton names name ih =>
    obtain ⟨hnodup, hmem⟩ := ih
    rw [dependencies, List.foldl_append, List.foldl_cons, List.foldl_nil, ← dependencies]
    cases hfind : findUnit units name with
    | none =>
      refine ⟨hnodup, fun j => ?_⟩
      rw [hmem j]
      simp [hfind]
    | some k =>
      by_cases hk : i ≠ k ∧ k ∉ dependencies units i names
      · simp only [if_pos hk]
        refine ⟨?_, fun j => ?_⟩
        · exact List.nodup_append.mpr ⟨hnodup, List.nodup_singleton k,
            fun a ha b hb => by
              rintro rfl
              exact hk.2 (List.mem_singleton.mp hb ▸ ha)⟩
        · rw [List.mem_append, hmem j, List.mem_singleton]
          constructor
          · rintro (⟨hne, name', hin, hj⟩ | rfl)
            · exact ⟨hne, name', List.mem_append_left _ hin, hj⟩
            · exact ⟨hk.1, name, by simp, hfind⟩
          · rintro ⟨hne, name', hin, hj⟩
            rcases List.mem_append.mp hin with hin | hin
            · exact .inl ⟨hne, name', hin, hj⟩
            · rw [List.mem_singleton.mp hin, hfind] at hj
              exact .inr (Option.some.inj hj).symm
      · simp only [if_neg hk]
        refine ⟨hnodup, fun j => ?_⟩
        rw [hmem j]
        constructor
        · rintro ⟨hne, name', hin, hj⟩
          exact ⟨hne, name', List.mem_append_left _ hin, hj⟩
        · rintro ⟨hne, name', hin, hj⟩
          rcases List.mem_append.mp hin with hin | hin
          · exact ⟨hne, name', hin, hj⟩
          · rw [List.mem_singleton.mp hin, hfind] at hj
            obtain rfl := Option.some.inj hj
            have hin : k ∈ dependencies units i names := by
              by_contra hout
              exact hk ⟨hne, hout⟩
            exact (hmem k).mp hin

theorem nodup_dependsOn (units : List UnitFile) (i : ℕ) : (dependsOn units i).Nodup := by
  unfold dependsOn
  split
  · exact (dependencies_spec units i _).1
  · exact List.nodup_nil

theorem mem_dependsOn_iff (hnames : (units.map (·.name)).Nodup) (i j : ℕ) :
    j ∈ dependsOn units i ↔ Names units i j := by
  rw [dependsOn]
  cases hu : units[i]? with
  | none => simp [Names, hu]
  | some u =>
    rw [(dependencies_spec units i _).2 j]
    refine and_congr_right fun _ => ?_
    constructor
    · rintro ⟨name, hin, hfind⟩
      obtain ⟨v, hv, rfl⟩ := findUnit_lt hfind
      exact ⟨u, v, hu, hv, hin⟩
    · rintro ⟨u', v, hu', hv, hin⟩
      obtain rfl := Option.some.inj (hu.symm.trans hu')
      exact ⟨v.name, hin, findUnit_of_name hnames hv⟩

/-! ## The edges backwards -/

theorem foldl_push {l : List ℕ} (hl : l.Nodup) (enables : ℕ → List ℕ) (i j : ℕ) :
    l.foldl (fun enables j => Function.update enables j (enables j ++ [i]))
        enables j =
      if j ∈ l then enables j ++ [i] else enables j := by
  induction l generalizing enables with
  | nil => simp
  | cons a l ih =>
    obtain ⟨ha, hl⟩ := List.nodup_cons.mp hl
    rw [List.foldl_cons, ih hl]
    by_cases hj : j = a
    · subst hj
      simp [ha]
    · simp [hj]

theorem reverseEdges_apply {deps : ℕ → List ℕ} (hdeps : ∀ i, (deps i).Nodup) (vertices : List ℕ)
    (j : ℕ) : reverseEdges deps vertices j = vertices.filter fun i => j ∈ deps i := by
  induction vertices using List.reverseRecOn with
  | nil => rfl
  | append_singleton vertices i ih =>
    rw [reverseEdges, List.foldl_append, List.foldl_cons, List.foldl_nil,
      ← reverseEdges, foldl_push (hdeps i), ih, List.filter_append]
    by_cases hj : j ∈ deps i <;> simp [hj]

/-- The edges of the units, forwards and backwards. -/
theorem graph_dependsOn (units : List UnitFile) :
    Kahn.Graph units.length (dependsOn units)
      (reverseEdges (dependsOn units) (List.range units.length)) where
  nodup i _ := nodup_dependsOn units i
  bound i _ j hj := by
    rw [dependsOn] at hj
    cases hu : units[i]? with
    | none => simp [hu] at hj
    | some u =>
      rw [hu] at hj
      obtain ⟨-, name, -, hfind⟩ := ((dependencies_spec units i _).2 j).mp hj
      obtain ⟨v, hv, -⟩ := findUnit_lt hfind
      exact (List.getElem?_eq_some_iff.mp hv).1
  enables_nodup j := by
    rw [reverseEdges_apply (nodup_dependsOn units)]
    exact List.nodup_range.filter _
  mem_enables i j := by
    rw [reverseEdges_apply (nodup_dependsOn units), List.mem_filter,
      List.mem_range, decide_eq_true_eq]

theorem inv_initialSearch (units : List UnitFile) :
    Kahn.Inv units.length (dependsOn units) (initialSearch units) where
  degree i _ := by simp [initialSearch]
  nodup := by
    simpa [initialSearch] using List.nodup_range.filter _
  mem i := by
    simp [initialSearch, List.eq_nil_iff_forall_not_mem]
  sorted pre i post h := by simp [initialSearch] at h

/-! ## The result -/

theorem dependsOn_eq_names (hnames : (units.map (·.name)).Nodup) :
    Kahn.DependsOn units.length (dependsOn units) = Names units := by
  funext i j
  refine propext ?_
  rw [Kahn.DependsOn, mem_dependsOn_iff hnames]
  refine and_iff_right_of_imp ?_
  rintro ⟨-, u, -, hu, -⟩
  exact (List.getElem?_eq_some_iff.mp hu).1

/-- The units that are left out are the ones with a count above zero. -/
theorem mem_cycle_iff {n : ℕ} {deps : ℕ → List ℕ} {s : Kahn.State}
    (h : Kahn.Inv n deps s) (hready : s.ready = []) (i : ℕ) :
    (i ∈ if s.order.length < n then (List.range n).filter (s.inDegree · > 0)
        else []) ↔ i < n ∧ i ∉ s.order := by
  have hmem : ∀ i, i ∈ s.order ↔ i < n ∧ ∀ j ∈ deps i, j ∈ s.order := by
    simpa [hready] using h.mem
  have hcount : ∀ i < n, s.inDegree i > 0 ↔ i ∉ s.order := by
    intro i hi
    rw [h.degree i hi, gt_iff_lt, List.length_pos_iff, ne_eq,
      List.filter_eq_nil_iff, not_iff_not, hmem i]
    simp [hi]
  split
  · rw [List.mem_filter, List.mem_range, decide_eq_true_eq]
    exact and_congr_right fun hi => hcount i hi
  · rename_i hfull
    -- an order of full length has every unit in it
    have hperm : s.order.Perm (List.range n) := by
      have hnodup : s.order.Nodup := by simpa [hready] using h.nodup
      have hsub : s.order ⊆ List.range n := fun i hi =>
        List.mem_range.mpr ((hmem i).mp hi).1
      refine (List.subperm_of_subset hnodup hsub).perm_of_length_le ?_
      simpa using hfull
    simp [hperm.mem_iff]

/-- The order and the units left out make up all units, every unit comes after
the units it depends on, and those left out are the ones on a cycle or depending
on one. -/
theorem resolveStartOrder_spec (units : List UnitFile) :
    let r := resolveStartOrder units
    (r.order ++ r.cycle).Perm (List.range units.length) ∧
      (∀ pre i post, r.order = pre ++ i :: post → ∀ j ∈ dependsOn units i, j ∈ pre) ∧
      ∀ i, i ∈ r.cycle ↔ i < units.length ∧
        Kahn.ReachesCycle (Kahn.DependsOn units.length (dependsOn units)) i := by
  intro r
  by_cases hempty : units.length = 0
  · obtain rfl := List.eq_nil_of_length_eq_zero hempty
    refine ⟨List.Perm.refl _, fun pre i post h => ?_, fun i => ?_⟩
    · exact absurd h.symm (by simp [r, resolveStartOrder])
    · simp [r, resolveStartOrder]
  · have hg := graph_dependsOn units
    obtain ⟨hinv, hdone⟩ := (inv_initialSearch units).search hg units.length
    have hready := hdone (Nat.le_add_left _ _)
    have hr : r = _ := if_neg hempty
    have hcycle := mem_cycle_iff hinv hready
    rw [hr]
    generalize Kahn.search (reverseEdges (dependsOn units)
      (List.range units.length)) units.length (initialSearch units) = s at *
    have hnodup : s.order.Nodup := by simpa [hready] using hinv.nodup
    refine ⟨?_, hinv.sorted, fun i => ?_⟩
    · refine (List.perm_ext_iff_of_nodup ?_ List.nodup_range).mpr fun i => ?_
      · refine List.nodup_append.mpr ⟨hnodup, ?_, ?_⟩
        · split
          · exact List.nodup_range.filter _
          · exact List.nodup_nil
        · rintro i hi _ hout rfl
          exact ((hcycle i).mp hout).2 hi
      · rw [List.mem_append, hcycle i, List.mem_range]
        have hbound : i ∈ s.order → i < units.length := fun hi =>
          ((hinv.mem i).mp (List.mem_append_right _ hi)).1
        by_cases hi : i ∈ s.order
        · simp [hi, hbound hi]
        · simp [hi]
    · rw [hcycle i]
      exact and_congr_right fun hi => hinv.left_out_iff hg hready hi

/-- The order and the units left out make up all units, every unit comes after
the units it names, and those left out are the ones on a cycle or depending on
one. -/
theorem resolveStartOrder_correct (units : List UnitFile) (hnames : (units.map (·.name)).Nodup) :
    let r := resolveStartOrder units
    (r.order ++ r.cycle).Perm (List.range units.length) ∧
      (∀ pre i post, r.order = pre ++ i :: post → ∀ j, Names units i j → j ∈ pre) ∧
      ∀ i, i ∈ r.cycle ↔ i < units.length ∧ Kahn.ReachesCycle (Names units) i := by
  intro r
  obtain ⟨hperm, hsorted, hcycle⟩ := resolveStartOrder_spec units
  refine ⟨hperm, fun pre i post h j hj => ?_, fun i => ?_⟩
  · exact hsorted pre i post h j ((mem_dependsOn_iff hnames i j).mpr hj)
  · rw [← dependsOn_eq_names hnames]
    exact hcycle i

/-- A unit file that only names its dependencies. -/
def bareUnit (name : String) (after requires : List String) : UnitFile where
  name := name
  unitType := .target
  state := .loaded
  requires := requires
  after := after
  serviceType := .simple
  execStart := ""
  restart := .no

/-- A shell after the console, and two units that wait for each other. -/
theorem resolveStartOrder_correct_small :
    let units := [bareUnit "shell" ["console", "shell"] ["console"],
      bareUnit "console" ["missing"] [], bareUnit "a" ["b"] [], bareUnit "b" [] ["a"]]
    (units.map (·.name)).Nodup ∧
      ∀ i, i ∈ (resolveStartOrder units).cycle ↔
        i < units.length ∧ Kahn.ReachesCycle (Names units) i := by
  intro units
  have hnames : (units.map (·.name)).Nodup := by decide
  exact ⟨hnames, (resolveStartOrder_correct units hnames).2.2⟩

example : resolveStartOrder [bareUnit "shell" ["console", "shell"] ["console"],
    bareUnit "console" ["missing"] [], bareUnit "a" ["b"] [],
    bareUnit "b" [] ["a"]] = ⟨[1, 0], [2, 3]⟩ := by
  decide +kernel

end RacOS.RacInit
