import RacOS.RacInit.Calls

/-!
# The directives of units

What `start_all` makes of the directives of `docs/specs/SERVICE_MODEL.md`.  `After=` and `Requires=`
order the starts, and a unit on a cycle of them, or behind one, is not started.  `Before=` is not
read.  A required unit that fails to start holds nothing up.
-/

namespace RacOS.RacInit

/-- A unit has the name of another one, or its own, in one of its lists. -/
def Lists (units : List UnitFile) (names : UnitFile → List String) (i j : ℕ) : Prop :=
  ∃ u name, units[i]? = some u ∧ name ∈ names u ∧ findUnit units name = some j

/-- A unit waits for another one that it lists in `After=` or `Requires=`. -/
def WaitsFor (units : List UnitFile) (i j : ℕ) : Prop :=
  i ≠ j ∧ Lists units (fun u => u.after ++ u.requires) i j

/-- The state that starting a unit leaves it in: it has failed if its program cannot be run, or is a
oneshot program that ends with an error. -/
def UnitFile.stateAfter (o : StartOutcome) (u : UnitFile) : UnitState :=
  if u.unitType = .service ∧ u.execStart ≠ "" ∧
    (o.spawned = none ∨ u.serviceType = .oneshot ∧ o.waited ≠ 0) then .failed else .active

namespace Engine

/-- The unit has ended as failed. -/
def Failed (e : Engine) (j : ℕ) : Prop := (e.units[j]?).map UnitFile.state = some .failed

instance (e : Engine) (j : ℕ) : Decidable (e.Failed j) :=
  inferInstanceAs (Decidable (_ = _))

/-- The directives as they are documented, for the engine before and after `start_all`.  A unit is
started no later than the units that it lists in `Before=`, not at all if a unit that it requires
ends as failed, and in all other cases. -/
structure HonoursDirectives (e e' : Engine) : Prop where
  before : ∀ i j, Lists e.units UnitFile.before i j → i ∈ e'.started → j ∈ e'.started →
    e'.started.idxOf i ≤ e'.started.idxOf j
  requires : ∀ i j, Lists e.units UnitFile.requires i j → e'.Failed j → i ∉ e'.started
  others : ∀ i < e.units.length,
    (∀ j, Lists e.units UnitFile.requires i j → ¬e'.Failed j) → i ∈ e'.started

/-! ## What is started -/

/-- A start is recorded and sets the state of the unit. -/
theorem startUnit_effect (o : StartOutcome) {idx : ℕ} {e : Engine} {unit : UnitFile}
    (hunit : e.units[idx]? = some unit) :
    (e.startUnit o idx).started = e.started ++ [idx] ∧
      (e.startUnit o idx).units = (e.setState idx (unit.stateAfter o)).units := by
  cases htype : unit.unitType with
  | service =>
    by_cases hexec : unit.execStart = ""
    · simp [startUnit, System.startUnit, idle, hunit, htype, hexec, setState, UnitFile.stateAfter]
    · cases hspawn : o.spawned with
      | none =>
        simp [startUnit, System.startUnit, idle, hunit, htype, hexec, hspawn, setState,
          UnitFile.stateAfter, List.modify_modify_eq, Function.comp_def]
      | some pid =>
        by_cases hone : unit.serviceType = .oneshot
        · simp [startUnit, System.startUnit, System.finishOneshot, idle, hunit, htype, hexec,
            hspawn, hone, setState, UnitFile.stateAfter, List.modify_modify_eq, Function.comp_def]
        · simp [startUnit, System.startUnit, idle, hunit, htype, hexec, hspawn, hone, setState,
            UnitFile.stateAfter, List.modify_modify_eq, Function.comp_def]
  | target | timer | mount | device =>
    simp [startUnit, System.startUnit, idle, hunit, htype, setState, UnitFile.stateAfter]

/-- The loop over the start order: its units are started in turn, and nothing else is changed. -/
theorem startEach_effect (outcomes : ℕ → StartOutcome) {order : List ℕ} (horder : order.Nodup)
    {e e' : Engine} (hbound : ∀ idx ∈ order, idx < e.units.length)
    (he' : e' = order.foldl (fun e idx => e.startUnit (outcomes idx) idx) e) :
    e'.started = e.started ++ order ∧ ∀ i, e'.units[i]? = (e.units[i]?).map fun u =>
      if i ∈ order then { u with state := u.stateAfter (outcomes i) } else u := by
  induction order generalizing e with
  | nil => simp [he']
  | cons idx order ih =>
    obtain ⟨hout, horder⟩ := List.nodup_cons.mp horder
    have hunit := List.getElem?_eq_getElem (hbound idx (by simp))
    obtain ⟨hstarted, hunits⟩ := startUnit_effect (outcomes idx) hunit
    obtain ⟨hstarted', hunits'⟩ := ih (e := e.startUnit (outcomes idx) idx) horder (fun i hi => by
      rw [hunits, length_setState]
      exact hbound i (by simp [hi])) he'
    refine ⟨by rw [hstarted', hstarted, List.append_assoc, List.singleton_append], fun i => ?_⟩
    rw [hunits', hunits, getElem?_setState, Option.map_map]
    by_cases hi : idx = i
    · rw [← hi, hunit]
      simp [hout]
    · cases e.units[i]? with
      | none => rfl
      | some u => simp [hi, Ne.symm hi]

theorem failAll_effect (cycle : List ℕ) (e : Engine) :
    (cycle.foldl (fun e idx => e.setState idx .failed) e).started = e.started ∧
      ∀ i, (cycle.foldl (fun e idx => e.setState idx .failed) e).units[i]? =
        (e.units[i]?).map fun u => if i ∈ cycle then { u with state := .failed } else u := by
  induction cycle generalizing e with
  | nil => simp
  | cons idx cycle ih =>
    refine ⟨(ih _).1, fun i => ?_⟩
    rw [List.foldl_cons, (ih _).2, getElem?_setState, Option.map_map]
    by_cases hi : idx = i
    · cases e.units[i]? <;> simp [hi]
    · cases e.units[i]? <;> simp [hi, Ne.symm hi]

/-- `start_all` starts the units of the start order, in this order and no others, and those that it
refuses end as failed. -/
theorem startAll_effect (outcomes : ℕ → StartOutcome) (e : Engine) :
    (e.startAll outcomes).started = e.started ++ (resolveStartOrder e.units).order ∧
      ∀ i, (e.startAll outcomes).units[i]? = (e.units[i]?).map fun u =>
        if i ∈ (resolveStartOrder e.units).order then
          { u with state := u.stateAfter (outcomes i) }
        else { u with state := .failed } := by
  obtain ⟨hperm, -, -⟩ := resolveStartOrder_spec e.units
  obtain ⟨horder, -, hdisjoint⟩ := List.nodup_append.mp (hperm.nodup_iff.mpr List.nodup_range)
  have hmem (i : ℕ) : i ∈ (resolveStartOrder e.units).order ∨
      i ∈ (resolveStartOrder e.units).cycle ↔ i < e.units.length := by
    rw [← List.mem_append, ← List.mem_range]
    exact hperm.mem_iff
  obtain ⟨hstarted, hunits⟩ := startEach_effect outcomes horder
    (fun idx hidx => (hmem idx).mp (.inl hidx)) rfl
  obtain ⟨hstarted', hunits'⟩ := failAll_effect (resolveStartOrder e.units).cycle
    ((resolveStartOrder e.units).order.foldl (fun e idx => e.startUnit (outcomes idx) idx) e)
  refine ⟨hstarted'.trans hstarted, fun i => (hunits' i).trans ?_⟩
  rw [hunits, Option.map_map]
  cases hu : e.units[i]? with
  | none => rfl
  | some u =>
    by_cases hi : i ∈ (resolveStartOrder e.units).order
    · have hout : i ∉ (resolveStartOrder e.units).cycle := fun h => hdisjoint i hi i h rfl
      simp [hi, hout]
    · have hin : i ∈ (resolveStartOrder e.units).cycle :=
        ((hmem i).mpr (List.getElem?_eq_some_iff.mp hu).1).resolve_left hi
      simp [hi, hin]

theorem mem_dependsOn_iff_waitsFor (units : List UnitFile) (i j : ℕ) :
    j ∈ dependsOn units i ↔ WaitsFor units i j := by
  rw [dependsOn]
  cases hu : units[i]? with
  | none => simp [WaitsFor, Lists, hu]
  | some u =>
    rw [(dependencies_spec units i _).2 j]
    simp [WaitsFor, Lists, hu]

theorem dependsOn_eq_waitsFor (units : List UnitFile) :
    Kahn.DependsOn units.length (dependsOn units) = WaitsFor units := by
  funext i j
  refine propext ?_
  rw [Kahn.DependsOn, mem_dependsOn_iff_waitsFor]
  refine and_iff_right_of_imp ?_
  rintro ⟨-, u, -, hu, -⟩
  exact (List.getElem?_eq_some_iff.mp hu).1

/-- Whatever the outcomes, `start_all` starts some of the units one after the other, and a start
leaves a unit active or failed as its program does.  A unit is started only after the units that it
lists in `After=` or `Requires=`; a unit that requires a unit on a cycle or behind one, which ends
as failed, is not started; and every unit is started that requires no unit that ends as failed and
neither lies on a cycle nor depends on one. -/
theorem startAll_follows_directives (outcomes : ℕ → StartOutcome) (e : Engine) :
    ∃ order, (e.startAll outcomes).started = e.started ++ order ∧
      (∀ i ∈ order, (e.startAll outcomes).units[i]? =
        (e.units[i]?).map fun u => { u with state := u.stateAfter (outcomes i) }) ∧
      (∀ pre i post, order = pre ++ i :: post → ∀ j, WaitsFor e.units i j → j ∈ pre) ∧
      (∀ i j, Lists e.units UnitFile.requires i j → Kahn.ReachesCycle (WaitsFor e.units) j →
        (e.startAll outcomes).Failed j ∧ i ∉ order) ∧
      ∀ i < e.units.length,
        (∀ j, Lists e.units UnitFile.requires i j → ¬(e.startAll outcomes).Failed j) →
        ¬Kahn.ReachesCycle (WaitsFor e.units) i → i ∈ order := by
  obtain ⟨hperm, hsorted, hcycle⟩ := resolveStartOrder_spec e.units
  obtain ⟨-, -, hdisjoint⟩ := List.nodup_append.mp (hperm.nodup_iff.mpr List.nodup_range)
  obtain ⟨hstarted, hunits⟩ := startAll_effect outcomes e
  simp only [mem_dependsOn_iff_waitsFor] at hsorted
  rw [dependsOn_eq_waitsFor] at hcycle
  refine ⟨_, hstarted, fun i hi => ?_, hsorted, ?_, fun i hi _ hacyclic => ?_⟩
  · rw [hunits]
    simp [hi]
  · rintro i j ⟨u, name, hu, hname, hfind⟩ hreaches
    obtain ⟨v, hv, -⟩ := findUnit_lt hfind
    have hlt := (List.getElem?_eq_some_iff.mp hv).1
    have hj := (hcycle j).mpr ⟨hlt, hreaches⟩
    have hout : j ∉ (resolveStartOrder e.units).order := fun h => hdisjoint j h j hj rfl
    refine ⟨?_, fun hi => hout ?_⟩
    · rw [Failed, hunits, List.getElem?_eq_getElem hlt]
      simp [hout]
    · by_cases hij : i = j
      · exact hij ▸ hi
      obtain ⟨pre, post, hsplit⟩ := List.append_of_mem hi
      have hpre := hsorted pre i post hsplit j
        ⟨hij, u, name, hu, List.mem_append_right _ hname, hfind⟩
      rw [hsplit]
      exact List.mem_append_left _ hpre
  · have hall := hperm.mem_iff.mpr (List.mem_range.mpr hi)
    exact (List.mem_append.mp hall).resolve_right fun hout => hacyclic ((hcycle i).mp hout).2

/-- A database that cannot be started, a server that requires it, a network that should come before
the server, and a report after two units that wait for each other. -/
def officeUnits : Engine := loaded
  [{ bareUnit "net" [] [] with before := ["web"] },
   { bareUnit "db" [] [] with unitType := .service, execStart := "/bin/db" },
   { bareUnit "web" [] ["db"] with unitType := .service, execStart := "/bin/web" },
   bareUnit "x" ["y"] [], bareUnit "y" ["x"] [], bareUnit "report" ["x"] []]

/-- The server is started before the network and although its database has failed; the report is not
started, although only a unit that it lists in `After=` has failed. -/
theorem not_honoursDirectives :
    ∃ e, e = officeUnits.startAll (fun _ => ⟨none, 0⟩) ∧ e.started = [1, 2, 0] ∧
      ¬HonoursDirectives officeUnits e ∧ e.Failed 1 ∧
      Lists officeUnits.units UnitFile.before 0 2 ∧
      Lists officeUnits.units UnitFile.requires 2 1 ∧
      (∀ j, ¬Lists officeUnits.units UnitFile.requires 5 j) ∧ 5 ∉ e.started := by
  have hstarted : (officeUnits.startAll fun _ => ⟨none, 0⟩).started = [1, 2, 0] := by
    decide +kernel
  have hfailed : (officeUnits.startAll fun _ => ⟨none, 0⟩).Failed 1 := by decide +kernel
  have hrequires : Lists officeUnits.units UnitFile.requires 2 1 :=
    ⟨_, "db", rfl, by decide, by decide +kernel⟩
  refine ⟨_, rfl, hstarted, fun h => ?_, hfailed, ⟨_, "web", rfl, by decide, by decide +kernel⟩,
    hrequires, ?_, by rw [hstarted]; decide⟩
  · exact h.requires 2 1 hrequires hfailed (by rw [hstarted]; decide)
  · rintro j ⟨u, name, hu, hname, -⟩
    obtain rfl := Option.some.inj hu
    exact absurd hname List.not_mem_nil

end Engine

end RacOS.RacInit
