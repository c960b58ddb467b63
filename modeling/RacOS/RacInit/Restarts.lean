import RacOS.Lib.RateLimit
import RacOS.Lib.Runs
import RacOS.RacInit.Calls

/-!
# The limit on restarts

`on_child_exit` starts a unit again if its policy asks for it and its tracker has room.  A unit that
is refused has no process left that the engine knows of, so that no later exit is taken for one of
its own.  Beside the engine a history is kept of the exits after which the policy of a unit asked
for a restart.
-/

namespace RacOS.RacInit

/-- An exit after which a unit should be started again, and whether it was. -/
structure Decision where
  unit : ℕ
  now : ℕ
  restarted : Bool

/-- What is decided about the unit whose process has exited. -/
def Engine.decision (c : ExitCall) (e : Engine) : Option Decision :=
  match e.pids.find? fun entry => entry.2 == c.pid with
  | none => none
  | some (unitIdx, _) =>
    match e.units[unitIdx]? with
    | none => none
    | some unit =>
      if unit.shouldRestart c.status then
        some ⟨unitIdx, c.now, e.restarted c == some unitIdx⟩
      else none

structure Supervised where
  engine : Engine
  history : List Decision

namespace Supervised

/-- After `start_all`, before the first exit. -/
def started (units : List UnitFile) (outcomes : ℕ → StartOutcome) : Supervised where
  engine := (Engine.loaded units).startAll outcomes
  history := []

def step (c : ExitCall) (s : Supervised) : Supervised where
  engine := s.engine.onChildExit c
  history := s.history ++ (s.engine.decision c).toList

/-- The exits of a unit that asked for a restart: their times, and whether they got it. -/
def exitsOf (s : Supervised) (idx : ℕ) : List (ℕ × Bool) :=
  (s.history.filter fun d => d.unit = idx).map fun d => (d.now, d.restarted)

end Supervised

namespace Engine

variable {e : Engine}

/-- The times kept for a unit. -/
def tracker (e : Engine) (idx : ℕ) : RestartTracker := e.restartTrackers.getD idx []

/-- The engine without the process that has exited. -/
def without (e : Engine) (pid : ℕ) : Engine :=
  { e with pids := e.pids.eraseP fun entry => entry.2 == pid }

theorem Tidy.without (h : e.Tidy) (pid : ℕ) : (e.without pid).Tidy where
  trackers := h.trackers
  entries := h.entries.sublist (List.eraseP_sublist.map _)
  bound entry hentry := h.bound entry (List.eraseP_sublist.subset hentry)

/-- The unit of the process that has exited has no other one. -/
theorem Tidy.notMem_without (h : e.Tidy) {pid : ℕ} {entry : ℕ × ℕ}
    (hfind : (e.pids.find? fun entry => entry.2 == pid) = some entry) :
    entry.1 ∉ (e.without pid).pids.map Prod.fst := by
  obtain ⟨hpid, pre, post, hpids, hpre⟩ := List.find?_eq_some_iff_append.mp hfind
  have herase : (e.without pid).pids = pre ++ post := by
    rw [Engine.without, hpids, List.eraseP_append_right _ (by simpa using hpre)]
    simp [hpid]
  have hnodup := h.entries
  rw [hpids, List.map_append, List.map_cons, List.nodup_middle, List.nodup_cons] at hnodup
  rw [herase, List.map_append]
  exact hnodup.1

section Exit

variable {c : ExitCall} {u p : ℕ} {unit : UnitFile}

theorem onChildExit_of_stranger (hfind : (e.pids.find? fun entry => entry.2 == c.pid) = none) :
    e.restarted c = none ∧ e.onChildExit c = e := by
  have hnone : e.restarted c = none := by simp [restarted, System.onChildExit, idle, hfind]
  exact ⟨hnone, by simp [onChildExit, hnone, System.onChildExit, idle, hfind]⟩

variable (hfind : (e.pids.find? fun entry => entry.2 == c.pid) = some (u, p))
    (hunit : e.units[u]? = some unit)
include hfind hunit

theorem onChildExit_of_not_asked (hask : unit.shouldRestart c.status = false) :
    e.restarted c = none ∧ e.onChildExit c =
      (e.without c.pid).setState u (if c.status = 0 then .stopped else .failed) := by
  have hnone : e.restarted c = none := by
    simp [restarted, System.onChildExit, System.record, idle, hfind, hunit, hask]
  refine ⟨hnone, ?_⟩
  simp [onChildExit, hnone, System.onChildExit, System.record, idle, hfind, hunit, hask,
    Engine.without]

/-- A restart that is asked for is refused if there have been too many. -/
theorem onChildExit_of_asked (hask : unit.shouldRestart c.status = true) {kept : List ℕ}
    (hkept : RateLimit.record burstWindowSec c.now (e.tracker u) = kept) :
    if burstLimit < kept.length then
      e.restarted c = none ∧ e.onChildExit c =
        ((e.without c.pid).recorded u kept).setState u .failed
    else
      e.restarted c = some u ∧ e.onChildExit c =
        (((e.without c.pid).recorded u kept).setState u .stopped).startUnit c.outcome u := by
  have hcheck : recordAndCheck c.now (e.restartTrackers[u]?.getD []) =
      (kept, decide (kept.length > burstLimit)) := by
    rw [← hkept]
    rfl
  split
  all_goals
    rename_i hfull
    simp [onChildExit, restarted, System.onChildExit, System.record, idle, hfind, hunit, hask,
      hcheck, hfull, Engine.without, Engine.recorded]

end Exit

/-- An exit that is no one's changes nothing.  One that asks for no restart removes the process.
One that asks for a restart is recorded as well; the unit is started again if there is room, and is
left without a process if not. -/
theorem onChildExit_cases (h : e.Tidy) (c : ExitCall) :
    (e.decision c = none ∧ e.restarted c = none ∧ (e.onChildExit c).Tidy ∧
      (e.onChildExit c).restartTrackers = e.restartTrackers ∧
      ∀ i ∈ (e.onChildExit c).pids.map Prod.fst, i ∈ e.pids.map Prod.fst) ∨
    ∃ u ∈ e.pids.map Prod.fst, ∃ kept, kept = RateLimit.record burstWindowSec c.now (e.tracker u) ∧
      e.decision c = some ⟨u, c.now, kept.length ≤ burstLimit⟩ ∧
      (e.restarted c = none ∨ e.restarted c = some u) ∧ (e.onChildExit c).Tidy ∧
      (e.onChildExit c).restartTrackers = e.restartTrackers.set u kept ∧
      (∀ i ∈ (e.onChildExit c).pids.map Prod.fst, i ∈ e.pids.map Prod.fst) ∧
      (burstLimit < kept.length → u ∉ (e.onChildExit c).pids.map Prod.fst) := by
  have hsub : ∀ i ∈ (e.without c.pid).pids.map Prod.fst, i ∈ e.pids.map Prod.fst := fun i hi =>
    (List.eraseP_sublist.map _).subset hi
  cases hfind : e.pids.find? fun entry => entry.2 == c.pid with
  | none =>
    obtain ⟨hnone, hengine⟩ := onChildExit_of_stranger hfind
    rw [hengine]
    exact .inl ⟨by simp [decision, hfind], hnone, h, rfl, fun i hi => hi⟩
  | some entry =>
    obtain ⟨u, p⟩ := entry
    have hmem : (u, p) ∈ e.pids := List.mem_of_find?_eq_some hfind
    have hbound : u < e.units.length := h.bound (u, p) hmem
    have hunit : e.units[u]? = some e.units[u] := List.getElem?_eq_getElem hbound
    have hout : u ∉ (e.without c.pid).pids.map Prod.fst := h.notMem_without hfind
    have htidy := h.without c.pid
    cases hask : e.units[u].shouldRestart c.status with
    | false =>
      obtain ⟨hnone, hengine⟩ := onChildExit_of_not_asked hfind hunit hask
      rw [hengine]
      exact .inl ⟨by simp [decision, hfind, hunit, hask], hnone, htidy.setState _ _, rfl, hsub⟩
    | true =>
      refine .inr ⟨u, List.mem_map_of_mem hmem, _, rfl, ?_⟩
      generalize hkept : RateLimit.record burstWindowSec c.now (e.tracker u) = kept
      have hasked := onChildExit_of_asked hfind hunit hask hkept
      have hrecord : ((e.without c.pid).recorded u kept).Tidy := htidy.recorded u kept
      by_cases hfull : burstLimit < kept.length
      · rw [if_pos hfull] at hasked
        obtain ⟨hnone, hengine⟩ := hasked
        rw [hengine]
        refine ⟨?_, .inl hnone, hrecord.setState _ _, rfl, hsub, fun _ => hout⟩
        simp [decision, hfind, hunit, hask, hnone, hfull]
      · rw [if_neg hfull] at hasked
        obtain ⟨hsome, hengine⟩ := hasked
        rw [hengine]
        refine ⟨?_, .inr hsome, (hrecord.setState _ _).startUnit _ hout,
          (startUnit_cases _ _ _).1, fun i hi => ?_, fun hlt => absurd hlt hfull⟩
        · simp [decision, hfind, hunit, hask, hsome, Nat.le_of_not_lt hfull]
        · rcases mem_startUnit hi with hi | rfl
          · exact hsub i hi
          · exact List.mem_map_of_mem hmem

/-- A unit that is started again had a process. -/
theorem mem_of_restarted (h : e.Tidy) {c : ExitCall} {idx : ℕ} (hstart : e.restarted c = some idx) :
    idx ∈ e.pids.map Prod.fst := by
  rcases onChildExit_cases h c with ⟨-, hnone, -⟩ | ⟨u, hu, -, -, -, hnone | hsome, -⟩
  · cases hnone.symm.trans hstart
  · cases hnone.symm.trans hstart
  · cases hsome.symm.trans hstart
    exact hu

end Engine

namespace Supervised

open RateLimit

/-- The exits of a unit so far: all were followed by a restart, or all but the last one, which left
the unit without a process. -/
def Limited (idx : ℕ) (s : Supervised) : Prop :=
  (∃ times, Admitted burstWindowSec burstLimit (s.engine.tracker idx) times ∧
    s.exitsOf idx = times.map fun t => (t, true)) ∨
  ∃ kept times now, Admitted burstWindowSec burstLimit kept times ∧
    burstLimit < (record burstWindowSec now kept).length ∧
    s.exitsOf idx = (times.map fun t => (t, true)) ++ [(now, false)] ∧
    idx ∉ s.engine.pids.map Prod.fst

theorem exitsOf_step (c : ExitCall) (s : Supervised) (idx : ℕ) :
    (step c s).exitsOf idx = s.exitsOf idx ++
      ((s.engine.decision c).toList.filter fun d => d.unit = idx).map
        fun d => (d.now, d.restarted) := by
  rw [exitsOf, step, List.filter_append, List.map_append]
  rfl

theorem step_limited (idx : ℕ) (c : ExitCall) (s : Supervised)
    (h : s.engine.Tidy ∧ s.Limited idx) : (step c s).engine.Tidy ∧ (step c s).Limited idx := by
  obtain ⟨htidy, h⟩ := h
  have hexits := exitsOf_step c s idx
  rcases Engine.onChildExit_cases htidy c with
    ⟨hdecision, -, htidy', htrackers, hpids⟩ |
    ⟨u, hu, kept, hkept, hdecision, -, htidy', htrackers, hpids, hleft⟩
  · refine ⟨htidy', ?_⟩
    rw [hdecision, Option.toList_none, List.filter_nil, List.map_nil, List.append_nil] at hexits
    rcases h with ⟨times, hadmitted, htimes⟩ | ⟨kept, times, now, hadmitted, hfull, htimes, hgone⟩
    · refine .inl ⟨times, ?_, hexits.trans htimes⟩
      rw [step, Engine.tracker, htrackers]
      exact hadmitted
    · exact .inr ⟨kept, times, now, hadmitted, hfull, hexits.trans htimes,
        fun hmem => hgone (hpids idx hmem)⟩
  · refine ⟨htidy', ?_⟩
    have hlt : u < s.engine.restartTrackers.length := by
      obtain ⟨entry, hentry, rfl⟩ := List.mem_map.mp hu
      rw [htidy.trackers]
      exact htidy.bound entry hentry
    rw [hdecision, Option.toList_some] at hexits
    by_cases hidx : u = idx
    · subst hidx
      rw [List.filter_cons_of_pos (by simp), List.filter_nil, List.map_singleton] at hexits
      have htracker : (step c s).engine.tracker u = kept := by
        simp [step, Engine.tracker, htrackers, List.getD_eq_getElem?_getD, hlt]
      rcases h with ⟨times, hadmitted, htimes⟩ | ⟨_, _, _, _, _, _, hgone⟩
      · by_cases hfull : burstLimit < kept.length
        · -- refused: the unit is left without a process
          refine .inr ⟨_, times, c.now, hadmitted, by rwa [← hkept], ?_, hleft hfull⟩
          rw [hexits, htimes, decide_eq_false (Nat.not_le_of_lt hfull)]
        · have hle := Nat.le_of_not_lt hfull
          refine .inl ⟨times ++ [c.now], ?_, ?_⟩
          · rw [htracker, hkept]
            exact hadmitted.snoc (by rwa [← hkept])
          · rw [hexits, htimes, decide_eq_true hle, List.map_append, List.map_singleton]
      · exact absurd hu hgone
    · rw [List.filter_cons_of_neg (by simpa using hidx), List.filter_nil, List.map_nil,
        List.append_nil] at hexits
      have htracker : (step c s).engine.tracker idx = s.engine.tracker idx := by
        simp [step, Engine.tracker, htrackers, List.getD_eq_getElem?_getD,
          List.getElem?_set_ne hidx]
      rcases h with ⟨times, hadmitted, htimes⟩ | ⟨kept, times, now, hadmitted, hfull, htimes, hgone⟩
      · exact .inl ⟨times, by rwa [htracker], hexits.trans htimes⟩
      · exact .inr ⟨kept, times, now, hadmitted, hfull, hexits.trans htimes,
          fun hmem => hgone (hpids idx hmem)⟩

theorem started_limited (units : List UnitFile) (outcomes : ℕ → StartOutcome) (idx : ℕ) :
    (started units outcomes).engine.Tidy ∧ (started units outcomes).Limited idx := by
  have hnodup : (resolveStartOrder (Engine.loaded units).units).order.Nodup := by
    have hall := (resolveStartOrder_spec (Engine.loaded units).units).1.nodup_iff.mpr
      List.nodup_range
    exact (List.nodup_append.mp hall).1
  obtain ⟨hstart, htrackers⟩ := (Engine.Tidy.loaded units).startEach outcomes hnodup
    (by simp [Engine.loaded])
  obtain ⟨htidy, htrackers'⟩ := hstart.failAll (resolveStartOrder (Engine.loaded units).units).cycle
  refine ⟨htidy, .inl ⟨[], ?_, rfl⟩⟩
  have hempty : (started units outcomes).engine.tracker idx = [] := by
    rw [Engine.tracker, started, Engine.startAll, htrackers', htrackers, Engine.loaded,
      List.getD_eq_getElem?_getD, List.getElem?_map]
    cases units[idx]? <;> rfl
  rw [hempty]
  exact .nil

theorem times_of_map (times : List ℕ) : (times.map fun t => (t, true)).map Prod.fst = times := by
  simp [Function.comp_def]

theorem length_filter_admitted (times : List ℕ) (start : ℕ) :
    ((times.map fun t => (t, true)).filter fun d =>
      d.2 ∧ start ≤ d.1 ∧ d.1 ≤ start + burstWindowSec).length =
      (times.filter fun t => start ≤ t ∧ t ≤ start + burstWindowSec).length := by
  rw [List.filter_map, List.length_map]
  simp [Function.comp_def]

theorem split_at_refused {earlier later : List (ℕ × Bool)} {times : List ℕ} {now now₀ : ℕ}
    (hearlier : ∀ d ∈ earlier, d.2 = true)
    (h : earlier ++ (now, false) :: later = (times.map fun t => (t, true)) ++ [(now₀, false)]) :
    now₀ = now ∧ earlier = times.map fun t => (t, true) := by
  have hall : ∀ d ∈ times.map fun t => (t, true), d.2 = true := by simp
  have hfront := congrArg (List.takeWhile Prod.snd) h
  rw [List.takeWhile_append_of_pos hearlier, List.takeWhile_append_of_pos hall] at hfront
  simp only [List.takeWhile_cons, Bool.false_eq_true, if_false, List.append_nil] at hfront
  rw [hfront, List.append_cancel_left_eq] at h
  simp only [List.cons.injEq, Prod.mk.injEq] at h
  exact ⟨h.1.1.symm, hfront⟩

/-- In every sequence of exits handled after `start_all`, a unit is started again at most
`burstLimit` times within any `burstWindowSec` seconds, as long as time does not run backwards; the
first exit that is refused a restart follows that many restarts within such a window; and a unit
that was refused is not started by any further exit. -/
theorem restarts_rate_limited (units : List UnitFile) (outcomes : ℕ → StartOutcome)
    (calls : List ExitCall) (idx : ℕ) :
    let s := Runs.run step calls (started units outcomes)
    (((s.exitsOf idx).map Prod.fst).Pairwise (· ≤ ·) →
      (∀ start, ((s.exitsOf idx).filter fun d =>
        d.2 ∧ start ≤ d.1 ∧ d.1 ≤ start + burstWindowSec).length ≤ burstLimit) ∧
      ∀ earlier now later, s.exitsOf idx = earlier ++ (now, false) :: later →
        (∀ d ∈ earlier, d.2 = true) →
        burstLimit ≤ (earlier.filter fun d =>
          now - burstWindowSec ≤ d.1 ∧ d.1 ≤ now).length) ∧
    ((∃ now, (now, false) ∈ s.exitsOf idx) → ∀ c, s.engine.restarted c ≠ some idx) := by
  intro s
  obtain ⟨htidy, h⟩ : s.engine.Tidy ∧ s.Limited idx :=
    Runs.invariant (step_limited idx) calls (started_limited units outcomes idx)
  generalize s = s at *
  rcases h with ⟨times, hadmitted, hexits⟩ | ⟨kept, times, now₀, hadmitted, hfull, hexits, hgone⟩
  · refine ⟨fun hmono => ⟨fun start => ?_, ?_⟩, ?_⟩
    · rw [hexits, times_of_map] at hmono
      rw [hexits, length_filter_admitted]
      exact hadmitted.length_window_le hmono start
    · intro earlier now later hsplit
      have hmem : (now, false) ∈ times.map fun t => (t, true) := by
        rw [← hexits, hsplit]
        simp
      simp at hmem
    · rintro ⟨now, hmem⟩
      rw [hexits] at hmem
      simp at hmem
  · refine ⟨fun hmono => ⟨fun start => ?_, ?_⟩, fun _ c hstart => ?_⟩
    · rw [hexits, List.map_append, times_of_map] at hmono
      rw [hexits, List.filter_append, List.length_append, length_filter_admitted]
      simpa using hadmitted.length_window_le (List.pairwise_append.mp hmono).1 start
    · intro earlier now later hsplit hearlier
      -- the one exit that was refused is the last one
      obtain ⟨rfl, hlast⟩ := split_at_refused hearlier (hsplit.symm.trans hexits)
      rw [hexits, List.map_append, times_of_map] at hmono
      have hbefore : ∀ t ∈ times, t ≤ now₀ := fun t ht =>
        (List.pairwise_append.mp hmono).2.2 t ht now₀ (by simp)
      rw [hlast, List.filter_map, List.length_map]
      exact hadmitted.le_length_of_refused hbefore hfull
    · exact hgone (Engine.mem_of_restarted htidy hstart)

/-- A daemon that ends six times within one second is started again five times, and no more. -/
theorem restarts_rate_limited_burst :
    let daemon := { bareUnit "daemon" [] [] with
      unitType := .service, execStart := "/bin/daemon", restart := .always }
    let s := Runs.run step (List.replicate 6 ⟨7, 0, 100, ⟨some 7, 0⟩⟩)
      (started [daemon] fun _ => ⟨some 7, 0⟩)
    s.exitsOf 0 = List.replicate burstLimit (100, true) ++ [(100, false)] ∧
      ∀ c, s.engine.restarted c ≠ some 0 := by
  intro daemon s
  have hexits : s.exitsOf 0 = List.replicate burstLimit (100, true) ++ [(100, false)] := by decide
  have hrefused : (100, false) ∈ s.exitsOf 0 := by
    rw [hexits]
    simp
  exact ⟨hexits, (restarts_rate_limited [daemon] _ _ 0).2 ⟨100, hrefused⟩⟩

end Supervised

end RacOS.RacInit
