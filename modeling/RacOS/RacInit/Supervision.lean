import RacOS.Lib.Runs
import RacOS.RacInit.Engine

/-!
# Every exit reaches its unit

An exit of a process that init started for a unit should change the state of
that unit, once.  The engine finds the unit of a child by the list of running
processes, except while it starts a oneshot unit: there it takes whatever
child `wait` reports for the process it has just started.  When each of these
waits reports the process it is meant for, every exit is applied to its unit.
-/

namespace RacOS.RacInit

/-- The unit is active only while a process of it is running. -/
def UnitFile.RunsProcess (u : UnitFile) : Prop :=
  u.unitType = .service ∧ u.execStart ≠ "" ∧ u.serviceType ≠ .oneshot

/-- The exits applied are the exits reaped, the processes recorded are the
children started for units, and a unit that runs a process and is recorded as
active has one. -/
structure Attributed (s : System) : Prop where
  exits : s.applied = s.reaped
  recorded : ∀ i p, (i, p) ∈ s.engine.pids ↔ ∃ c ∈ s.children, c.pid = p ∧ c.owner = some i
  running : ∀ (i : ℕ) (u : UnitFile), s.engine.units[i]? = some u →
    u.RunsProcess → u.state = .active → ∃ c ∈ s.children, c.owner = some i

/-- The child may be reported here: where init waits for a oneshot unit, it is
the process of that unit. -/
def Control.Expects : Control → ℕ → Prop
  | .oneshot _ own _ _, pid => pid = own
  | _, _ => True

instance (control : Control) (pid : ℕ) : Decidable (control.Expects pid) :=
  match control with
  | .oneshot _ own _ _ => inferInstanceAs (Decidable (pid = own))
  | .supervise | .starting _ _ => isTrue trivial

/-- A wait that is meant for a oneshot unit reports its process. -/
def Meant : Event → System → Prop
  | .wait pid _, s => s.control.Expects pid
  | _, _ => True

instance (e : Event) (s : System) : Decidable (Meant e s) :=
  match e with
  | .wait pid _ => inferInstanceAs (Decidable (s.control.Expects pid))
  | .startAll | .startUnit _ | .next _ | .exit _ _ | .adopt _ | .noChildren => isTrue trivial

/-! ## States of units -/

@[simp] theorem Engine.pids_setState (e : Engine) (idx : ℕ) (state : UnitState) :
    (e.setState idx state).pids = e.pids := rfl

variable {state : UnitState}

theorem Engine.exists_of_setState {e : Engine} {idx i : ℕ} {u : UnitFile}
    (h : (e.setState idx state).units[i]? = some u) :
    ∃ u₀, e.units[i]? = some u₀ ∧ u.serviceType = u₀.serviceType ∧
      (u.RunsProcess ↔ u₀.RunsProcess) ∧
      (u.state = u₀.state ∧ idx ≠ i ∨ u.state = state ∧ idx = i) := by
  rw [getElem?_setState, Option.map_eq_some_iff] at h
  obtain ⟨u₀, hu₀, rfl⟩ := h
  refine ⟨u₀, hu₀, ?_⟩
  by_cases hi : idx = i
  · simp [hi, UnitFile.RunsProcess]
  · simp [hi, UnitFile.RunsProcess]

/-! ## The invariant -/

/-- What holds between the steps when every wait reports what it is meant
for: besides the attribution, no process of a oneshot unit is recorded except
the one that init waits for. -/
structure Sound (s : System) : Prop where
  distinct : (s.children.map (·.pid)).Nodup
  entries : (s.engine.pids.map Prod.snd).Nodup
  exits : s.applied = s.reaped
  recorded : ∀ i p, (i, p) ∈ s.engine.pids ↔ ∃ c ∈ s.children, c.pid = p ∧ c.owner = some i
  running : ∀ (i : ℕ) (u : UnitFile), s.engine.units[i]? = some u →
    u.RunsProcess → u.state = .active → ∃ p, (i, p) ∈ s.engine.pids
  oneshot : ∀ (i p : ℕ) (u : UnitFile), (i, p) ∈ s.engine.pids →
    s.engine.units[i]? = some u → u.serviceType = .oneshot →
      ∃ queue cycle, s.control = .oneshot i p queue cycle
  waiting : ∀ i p queue cycle, s.control = .oneshot i p queue cycle →
    (i, p) ∈ s.engine.pids ∧ ∃ u, s.engine.units[i]? = some u ∧ u.serviceType = .oneshot

variable {pid idx : ℕ} {c : Child} {queue cycle : List ℕ} {status : ℤ} {pids : List (ℕ × ℕ)}

namespace Sound

theorem boot (units : List UnitFile) (orphans : List ℕ) : Sound (System.boot units orphans) where
  distinct := by
    simpa [System.boot, Function.comp_def] using orphans.nodup_dedup
  entries := List.nodup_nil
  exits := rfl
  recorded i p := by simp [System.boot]
  running i u hu _ hactive := by
    simp only [System.boot, List.getElem?_map, Option.map_eq_some_iff] at hu
    obtain ⟨u₀, -, rfl⟩ := hu
    cases hactive
  oneshot i p u hp := by simp [System.boot] at hp
  waiting i p queue cycle h := by simp [System.boot] at h

variable {s : System} (h : Sound s)

include h

theorem attributed : Attributed s where
  exits := h.exits
  recorded := h.recorded
  running i u hu hruns hactive := by
    obtain ⟨p, hp⟩ := h.running i u hu hruns hactive
    obtain ⟨c, hc, -, howner⟩ := (h.recorded i p).mp hp
    exact ⟨c, hc, howner⟩

/-- A child is known by its process identifier. -/
theorem child_eq {c d : Child} (hc : c ∈ s.children) (hd : d ∈ s.children) (hpid : c.pid = d.pid) :
    c = d :=
  List.inj_on_of_nodup_map h.distinct hc hd hpid

/-- A new child has an identifier of its own. -/
theorem nodup_fresh (hfresh : s.Fresh pid) (owner : Option ℕ) :
    ((s.children ++ [(⟨pid, owner, none⟩ : Child)]).map (·.pid)).Nodup := by
  rw [List.map_append, List.map_singleton, List.nodup_append]
  refine ⟨h.distinct, List.nodup_singleton _, ?_⟩
  rintro p hp _ hpid rfl
  obtain ⟨c, hc, rfl⟩ := List.mem_map.mp hp
  exact hfresh c hc (List.mem_singleton.mp hpid)

/-- Changing the state of a unit, which becomes active only if it has a
process. -/
theorem setState (hstate : state = .active → ∀ u, s.engine.units[idx]? = some u →
      u.RunsProcess → ∃ p, (idx, p) ∈ s.engine.pids) :
    Sound { s with engine := s.engine.setState idx state } where
  __ := h
  running i u hu hruns hactive := by
    obtain ⟨u₀, hu₀, -, hsame, hcases⟩ := Engine.exists_of_setState hu
    rcases hcases with ⟨hold, -⟩ | ⟨hnew, rfl⟩
    · exact h.running i u₀ hu₀ (hsame.mp hruns) (hold ▸ hactive)
    · exact hstate (hnew ▸ hactive) u₀ hu₀ (hsame.mp hruns)
  oneshot i p u hp hu htype := by
    obtain ⟨u₀, hu₀, hsame, -⟩ := Engine.exists_of_setState hu
    exact h.oneshot i p u₀ hp hu₀ (hsame ▸ htype)
  waiting i p queue cycle hcontrol := by
    obtain ⟨hp, u, hu, htype⟩ := h.waiting i p queue cycle hcontrol
    refine ⟨hp, if idx = i then { u with state := state } else u, ?_, ?_⟩
    · rw [Engine.getElem?_setState, hu]
      rfl
    · split <;> exact htype

variable {control : Control}

/-- Going from one place to another, neither of them the wait for a oneshot
unit. -/
theorem goto (hfrom : ∀ i p queue cycle, s.control ≠ .oneshot i p queue cycle)
    (hto : ∀ i p queue cycle, control ≠ .oneshot i p queue cycle) :
    Sound { s with control := control } where
  __ := h
  oneshot i p u hp hu htype := by
    obtain ⟨queue, cycle, hcontrol⟩ := h.oneshot i p u hp hu htype
    exact absurd hcontrol (hfrom i p queue cycle)
  waiting i p queue cycle hcontrol := absurd hcontrol (hto i p queue cycle)

theorem spawn {unit : UnitFile} (hcontrol : s.control = .starting queue cycle)
    (hunit : s.engine.units[idx]? = some unit) (hfresh : s.Fresh pid) :
    Sound { s with
      engine := { s.engine with pids := s.engine.pids ++ [(idx, pid)] }
      children := s.children ++ [⟨pid, some idx, none⟩]
      control := if unit.serviceType = .oneshot then
        .oneshot idx pid queue cycle else s.control } := by
  have hnew : ∀ i p, (i, p) ∈ s.engine.pids → p ≠ pid := by
    rintro i p hp rfl
    obtain ⟨c, hc, hpid, -⟩ := (h.recorded i p).mp hp
    exact hfresh c hc hpid
  refine ⟨h.nodup_fresh hfresh _, ?_, h.exits, fun i p => ?_, ?_, ?_, ?_⟩
  · rw [List.map_append, List.map_singleton, List.nodup_append]
    refine ⟨h.entries, List.nodup_singleton _, ?_⟩
    rintro p hp _ hpid rfl
    obtain ⟨⟨i, p⟩, he, rfl⟩ := List.mem_map.mp hp
    exact hnew i p he (List.mem_singleton.mp hpid)
  · simp only [List.mem_append, List.mem_singleton, h.recorded i p]
    constructor
    · rintro (⟨c, hc, hpid, howner⟩ | heq)
      · exact ⟨c, .inl hc, hpid, howner⟩
      · obtain ⟨rfl, rfl⟩ := Prod.mk.inj heq
        exact ⟨_, .inr rfl, rfl, rfl⟩
    · rintro ⟨c, hc | rfl, hpid, howner⟩
      · exact .inl ⟨c, hc, hpid, howner⟩
      · exact .inr (Prod.ext (Option.some.inj howner).symm hpid.symm)
  · intro i u hu hruns hactive
    obtain ⟨p, hp⟩ := h.running i u hu hruns hactive
    exact ⟨p, List.mem_append_left _ hp⟩
  · intro i p u hp hu htype
    rcases List.mem_append.mp hp with hp | hp
    · obtain ⟨q, c, hc⟩ := h.oneshot i p u hp hu htype
      rw [hcontrol] at hc
      cases hc
    · obtain ⟨rfl, rfl⟩ := Prod.mk.inj (List.mem_singleton.mp hp)
      obtain rfl := Option.some.inj (hunit.symm.trans hu)
      exact ⟨queue, cycle, if_pos htype⟩
  · intro i p q c hc
    by_cases htype : unit.serviceType = .oneshot
    · simp only [htype, if_true] at hc
      cases hc
      exact ⟨by simp, unit, hunit, htype⟩
    · simp only [htype, if_false, hcontrol] at hc
      cases hc

/-- An exit is taken from the records of the children and of the processes,
and changes the state of its unit. -/
theorem exit (hc : c ∈ s.children) (howner : c.owner = some idx)
    {trackers : List RestartTracker} (hentries : (pids.map Prod.snd).Nodup)
    (hpids : ∀ i p, (i, p) ∈ pids ↔ (i, p) ∈ s.engine.pids ∧ p ≠ c.pid)
    (hstate : state = .active → ∀ u, s.engine.units[idx]? = some u → ¬u.RunsProcess)
    (honeshot : ∀ (i p : ℕ) (u : UnitFile), (i, p) ∈ pids →
      s.engine.units[i]? = some u → u.serviceType ≠ .oneshot)
    (hto : ∀ i p queue cycle, control ≠ .oneshot i p queue cycle) :
    Sound
      { engine :=
          { s.engine with
            units := (s.engine.setState idx state).units
            pids := pids
            restartTrackers := trackers }
        control := control
        children := s.children.filter fun d => d.pid ≠ c.pid
        reaped := s.reaped ++ [⟨idx, c.pid, status⟩]
        applied := s.applied ++ [⟨idx, c.pid, status⟩] } where
  distinct := (List.filter_sublist.map _).nodup h.distinct
  entries := hentries
  exits := by rw [h.exits]
  recorded i p := by
    rw [hpids, h.recorded]
    simp only [List.mem_filter, decide_eq_true_eq]
    constructor
    · rintro ⟨⟨d, hd, rfl, hi⟩, hne⟩
      exact ⟨d, ⟨hd, hne⟩, rfl, hi⟩
    · rintro ⟨d, ⟨hd, hne⟩, rfl, hi⟩
      exact ⟨⟨d, hd, rfl, hi⟩, hne⟩
  running i u hu hruns hactive := by
    obtain ⟨u₀, hu₀, -, hsame, hcases⟩ := Engine.exists_of_setState hu
    rcases hcases with ⟨hold, hne⟩ | ⟨hnew, rfl⟩
    · obtain ⟨p, hp⟩ := h.running i u₀ hu₀ (hsame.mp hruns) (hold ▸ hactive)
      refine ⟨p, (hpids i p).mpr ⟨hp, ?_⟩⟩
      rintro rfl
      -- the process that exited belongs to one unit only
      obtain ⟨d, hd, hpid, hdowner⟩ := (h.recorded i c.pid).mp hp
      obtain rfl := h.child_eq hd hc hpid
      exact hne (Option.some.inj (howner.symm.trans hdowner))
    · exact absurd (hsame.mp hruns) (hstate (hnew ▸ hactive) u₀ hu₀)
  oneshot i p u hp hu htype := by
    obtain ⟨u₀, hu₀, hsame, -⟩ := Engine.exists_of_setState hu
    exact absurd (hsame ▸ htype) (honeshot i p u₀ hp hu₀)
  waiting i p queue cycle hcontrol := absurd hcontrol (hto i p queue cycle)

theorem orphan (hc : c ∈ s.children) (howner : c.owner = none) :
    Sound { s with children := s.children.filter fun d => d.pid ≠ c.pid } where
  __ := h
  distinct := (List.filter_sublist.map _).nodup h.distinct
  recorded i p := by
    rw [h.recorded]
    simp only [List.mem_filter, decide_eq_true_eq]
    constructor
    · rintro ⟨d, hd, rfl, hi⟩
      refine ⟨d, ⟨hd, fun hpid => ?_⟩, rfl, hi⟩
      obtain rfl := h.child_eq hd hc hpid
      simp [howner] at hi
    · rintro ⟨d, ⟨hd, -⟩, rfl, hi⟩
      exact ⟨d, hd, rfl, hi⟩

theorem failAll (cycle : List ℕ) :
    Sound { s with
      engine := cycle.foldl (fun e idx => e.setState idx .failed) s.engine } := by
  induction cycle generalizing s with
  | nil => exact h
  | cons idx cycle ih =>
    have hfailed : Sound { s with engine := s.engine.setState idx .failed } :=
      h.setState fun hst => UnitState.noConfusion hst
    exact ih hfailed

theorem childExit (f : Child → Child) (hpid : ∀ c, (f c).pid = c.pid)
    (howner : ∀ c, (f c).owner = c.owner) : Sound { s with children := s.children.map f } where
  __ := h
  distinct := by
    simpa [Function.comp_def, hpid] using h.distinct
  recorded i p := by
    rw [h.recorded]
    simp [hpid, howner]

theorem adopt (hfresh : s.Fresh pid) :
    Sound { s with children := s.children ++ [⟨pid, none, none⟩] } where
  __ := h
  distinct := h.nodup_fresh hfresh none
  recorded i p := by
    rw [h.recorded]
    constructor
    · rintro ⟨c, hc, hcp⟩
      exact ⟨c, List.mem_append_left _ hc, hcp⟩
    · rintro ⟨c, hc, hpid, howner⟩
      rcases List.mem_append.mp hc with hc | hc
      · exact ⟨c, hc, hpid, howner⟩
      · rw [List.mem_singleton.mp hc] at howner
        cases howner

end Sound

/-! ## The steps -/

/-- The first entry of a process is its only one. -/
theorem mem_eraseP_iff (h : (pids.map Prod.snd).Nodup) (pid i p : ℕ) :
    (i, p) ∈ pids.eraseP (fun e => e.2 == pid) ↔ (i, p) ∈ pids ∧ p ≠ pid := by
  induction pids with
  | nil => simp
  | cons e pids ih =>
    obtain ⟨j, q⟩ := e
    rw [List.map_cons, List.nodup_cons] at h
    by_cases hq : q = pid
    · subst hq
      have hother : ∀ p, (i, p) ∈ pids → p ≠ q := by
        rintro p hp rfl
        exact h.1 (List.mem_map.mpr ⟨_, hp, rfl⟩)
      rw [List.eraseP_cons_of_pos (by simp)]
      constructor
      · exact fun hp => ⟨List.mem_cons_of_mem _ hp, hother p hp⟩
      · rintro ⟨hp, hne⟩
        rcases List.mem_cons.mp hp with heq | hp
        · exact absurd (Prod.mk.inj heq).2 hne
        · exact hp
    · rw [List.eraseP_cons_of_neg (by simpa using hq), List.mem_cons, List.mem_cons, ih h.2]
      constructor
      · rintro (heq | ⟨hp, hne⟩)
        · exact ⟨.inl heq, (Prod.mk.inj heq).2 ▸ hq⟩
        · exact ⟨.inr hp, hne⟩
      · rintro ⟨heq | hp, hne⟩
        · exact .inl heq
        · exact .inr ⟨hp, hne⟩

variable {s : System}

theorem zombie_spec (h : s.zombie pid = some (c, status)) : c ∈ s.children ∧ c.pid = pid := by
  obtain ⟨d, hd, hsome⟩ := List.exists_of_findSome?_eq_some h
  by_cases hpid : d.pid = pid
  · rw [if_pos hpid, Option.map_eq_some_iff] at hsome
    obtain ⟨st, -, heq⟩ := hsome
    obtain ⟨rfl, -⟩ := Prod.mk.inj heq
    exact ⟨hd, hpid⟩
  · rw [if_neg hpid] at hsome
    cases hsome

theorem Sound.startUnit (h : Sound s) {outcome : Option ℕ} {queue cycle queue' cycle' : List ℕ}
    (hcontrol : s.control = .starting queue' cycle') (hfresh : ∀ pid ∈ outcome, s.Fresh pid) :
    Sound (s.startUnit idx outcome queue cycle) := by
  have hgoto : Sound { s with control := .starting queue cycle } :=
    h.goto (by simp [hcontrol]) (by simp)
  rw [System.startUnit]
  cases hunit : s.engine.units[idx]? with
  | none => simpa only using hgoto
  | some unit =>
    have hgoto : Sound
        { s with
          control := .starting queue cycle
          engine.started := s.engine.started ++ [idx] } := { hgoto with }
    simp only
    -- a unit without a process may become active at once
    have hactive : ¬unit.RunsProcess → Sound
        { s with
          control := .starting queue cycle
          engine :=
            { s.engine with started := s.engine.started ++ [idx] }.setState idx .active } := by
      intro hruns
      refine hgoto.setState fun _ u hu hu' => absurd hu' ?_
      obtain rfl := Option.some.inj (hunit.symm.trans hu)
      exact hruns
    cases htype : unit.unitType with
    | service =>
      by_cases hexec : unit.execStart = ""
      · simp only [hexec, if_true]
        exact hactive (by simp [UnitFile.RunsProcess, hexec])
      · simp only [hexec, if_false]
        have hstarting : Sound
            { s with
              control := .starting queue cycle
              engine :=
                { s.engine with started := s.engine.started ++ [idx] }.setState idx .starting } :=
          hgoto.setState fun hst => UnitState.noConfusion hst
        cases outcome with
        | none =>
          exact hstarting.setState fun hst => UnitState.noConfusion hst
        | some pid =>
          have hunit' : (s.engine.setState idx .starting).units[idx]? =
              some { unit with state := .starting } := by
            rw [Engine.getElem?_setState, hunit]
            simp
          have hspawn := hstarting.spawn rfl hunit' (hfresh pid rfl)
          exact hspawn.setState fun _ _ _ _ => ⟨pid, by simp⟩
    | target | timer | mount | device =>
      exact hactive (by simp [UnitFile.RunsProcess, htype])

/-- The entry found for a child is that of the unit it was started for. -/
theorem Sound.owner_of_mem (h : Sound s) (hc : c ∈ s.children)
    (hmem : (idx, c.pid) ∈ s.engine.pids) : c.owner = some idx := by
  obtain ⟨d, hd, hpid, howner⟩ := (h.recorded idx c.pid).mp hmem
  obtain rfl := h.child_eq hd hc hpid
  exact howner

theorem Sound.onChildExit (h : Sound s) (hcontrol : s.control = .supervise) (hc : c ∈ s.children)
    (status : ℤ) (now : ℕ) : Sound ((s.reap c status).onChildExit c.pid status now) := by
  have hone : ∀ (i p : ℕ) (u : UnitFile), (i, p) ∈ s.engine.pids →
      s.engine.units[i]? = some u → u.serviceType ≠ .oneshot := by
    intro i p u hp hu htype
    obtain ⟨queue, cycle, h'⟩ := h.oneshot i p u hp hu htype
    rw [hcontrol] at h'
    cases h'
  rw [System.onChildExit]
  cases hfind : s.engine.pids.find? (fun e => e.2 == c.pid) with
  | none =>
    have howner : c.owner = none := by
      by_contra hne
      obtain ⟨idx, hidx⟩ := Option.ne_none_iff_exists'.mp hne
      have hmem := (h.recorded idx c.pid).mpr ⟨c, hc, rfl, hidx⟩
      have := List.find?_eq_none.mp hfind _ hmem
      simp at this
    have horphan := h.orphan hc howner
    simpa [System.reap, hfind, howner] using horphan
  | some e =>
    obtain ⟨idx, q⟩ := e
    have hq : q = c.pid := by simpa using List.find?_some hfind
    subst hq
    have hmem := List.mem_of_find?_eq_some hfind
    have howner := h.owner_of_mem hc hmem
    -- every branch takes the entry out and leaves the unit inactive
    have hexit : ∀ (state : UnitState) (trackers : List RestartTracker)
        (control : Control), state ≠ .active →
        (∀ i p queue cycle, control ≠ .oneshot i p queue cycle) → Sound
          { engine :=
              { s.engine with
                units := (s.engine.setState idx state).units
                pids := s.engine.pids.eraseP fun e => e.2 == c.pid
                restartTrackers := trackers }
            control := control
            children := s.children.filter fun d => d.pid ≠ c.pid
            reaped := s.reaped ++ [⟨idx, c.pid, status⟩]
            applied := s.applied ++ [⟨idx, c.pid, status⟩] } := by
      intro state trackers control hstate hto
      refine h.exit hc howner ?_ (mem_eraseP_iff h.entries c.pid)
        (fun hst => absurd hst hstate) ?_ hto
      · exact (List.eraseP_sublist.map _).nodup h.entries
      · intro i p u hp
        exact hone i p u (List.mem_of_mem_eraseP hp)
    have hreaped : (s.reap c status).reaped = s.reaped ++ [⟨idx, c.pid, status⟩] := by
      simp [System.reap, howner]
    simp only [System.record, hreaped, System.engine_reap, hfind,
      System.control_reap, System.children_reap, System.applied_reap]
    cases hunit : s.engine.units[idx]? with
    | none =>
      have hsame : (s.engine.setState idx .failed).units = s.engine.units :=
        List.modify_eq_self (List.getElem?_eq_none_iff.mp hunit)
      have hout := hexit .failed s.engine.restartTrackers s.control (by decide)
        (by simp [hcontrol])
      rw [hsame] at hout
      exact hout
    | some unit =>
      simp only
      split
      · refine hexit _ _ _ ?_ (by simp [hcontrol])
        split <;> decide
      · split
        · exact hexit _ _ _ (by decide) (by simp [hcontrol])
        · exact hexit _ _ _ (by decide) (by simp)

theorem Sound.wait_oneshot (h : Sound s) (hcontrol : s.control = .oneshot idx c.pid queue cycle)
    (hc : c ∈ s.children) (status : ℤ) :
    Sound (((s.reap c status).record idx c.pid status).finishOneshot idx status
      queue cycle) := by
  obtain ⟨hmem, u, hu, htype⟩ := h.waiting idx c.pid queue cycle hcontrol
  have howner := h.owner_of_mem hc hmem
  have hreaped : (s.reap c status).reaped = s.reaped ++ [⟨idx, c.pid, status⟩] := by
    simp [System.reap, howner]
  -- the process waited for is the only one of its unit
  have hpids : ∀ i p, (i, p) ∈ s.engine.pids.filter (fun e => e.1 ≠ idx) ↔
      (i, p) ∈ s.engine.pids ∧ p ≠ c.pid := by
    intro i p
    rw [List.mem_filter, decide_eq_true_eq]
    refine and_congr_right fun hp => not_congr ⟨fun hi => ?_, fun hpid => ?_⟩
    · subst hi
      obtain ⟨q, cyc, hc'⟩ := h.oneshot i p u hp hu htype
      rw [hcontrol] at hc'
      cases hc'
      rfl
    · subst hpid
      exact Option.some.inj ((h.owner_of_mem hc hp).symm.trans howner)
  simp only [System.finishOneshot, System.record, hreaped]
  refine h.exit hc howner ((List.filter_sublist.map _).nodup h.entries) hpids ?_
    ?_ (by simp)
  · intro _ u' hu' hruns
    obtain rfl := Option.some.inj (hu.symm.trans hu')
    exact hruns.2.2 htype
  · intro i p u' hp hu' htype'
    obtain ⟨q, cyc, hc'⟩ := h.oneshot i p u' (List.mem_of_mem_filter hp) hu' htype'
    rw [hcontrol] at hc'
    cases hc'
    exact ((hpids idx c.pid).mp hp).2 rfl

/-- One step keeps every exit with its unit when a wait reports what it is
meant for. -/
theorem Sound.step (e : Event) (s : System) (h : Sound s) (he : Meant e s) : Sound (s.step e) := by
  cases e with
  | startAll | startUnit =>
    rw [System.step]
    cases hcontrol : s.control with
    | supervise => exact h.goto (by simp [hcontrol]) (by simp)
    | starting queue cycle => exact h
    | oneshot idx pid queue cycle => exact h
  | next outcome =>
    rw [System.step]
    cases hcontrol : s.control with
    | supervise => exact h
    | oneshot idx pid queue cycle => exact h
    | starting queue cycle =>
      cases queue with
      | nil =>
        have hgoto : Sound { s with control := .supervise } :=
          h.goto (by simp [hcontrol]) (by simp)
        exact hgoto.failAll cycle
      | cons idx queue =>
        simp only
        split
        · rename_i hfresh
          exact h.startUnit hcontrol hfresh
        · exact h
  | exit pid status =>
    refine h.childExit _ (fun c => ?_) fun c => ?_ <;> split <;> rfl
  | adopt pid =>
    rw [System.step]
    split
    · exact h.adopt ‹_›
    · exact h
  | wait pid now =>
    rw [System.step]
    cases hzombie : s.zombie pid with
    | none => exact h
    | some z =>
      obtain ⟨c, status⟩ := z
      obtain ⟨hc, rfl⟩ := zombie_spec hzombie
      cases hcontrol : s.control with
      | supervise => exact h.onChildExit hcontrol hc status now
      | starting queue cycle => exact h
      | oneshot idx own queue cycle =>
        have hown : c.pid = own := by
          simpa [Meant, Control.Expects, hcontrol] using he
        subst hown
        exact h.wait_oneshot hcontrol hc status
  | noChildren =>
    rw [System.step]
    cases hchildren : s.children with
    | cons c children => exact h
    | nil =>
      cases hcontrol : s.control with
      | supervise => exact h
      | starting queue cycle => exact h
      | oneshot idx own queue cycle =>
        -- the process just started is a child
        obtain ⟨hmem, -⟩ := h.waiting idx own queue cycle hcontrol
        obtain ⟨c, hc, -⟩ := (h.recorded idx own).mp hmem
        simp [hchildren] at hc

/-- After every run in which each wait for a oneshot unit reports the process
of that unit, every exit has been applied to its unit, and no unit is recorded
as running whose process was reaped. -/
theorem attributed_of_meant (units : List UnitFile) (orphans : List ℕ) (events : List Event)
    (h : Runs.Along System.step Meant events (System.boot units orphans)) :
    Attributed (Runs.run System.step events (System.boot units orphans)) :=
  (Runs.invariant_of_along (I := Sound) Sound.step (Sound.boot units orphans)
    h).attributed

/-- A service of init. -/
def service (name : String) (serviceType : ServiceType) : UnitFile where
  name := name
  unitType := .service
  state := .loaded
  requires := []
  after := []
  serviceType := serviceType
  execStart := "/bin/" ++ name
  restart := .no

/-- A daemon and a oneshot unit that is started after it. -/
def daemonAndSetup : List UnitFile :=
  [service "setup" .oneshot, service "daemon" .simple]

/-- The oneshot unit ends first, then the daemon. -/
theorem attributed_of_meant_small :
    let events := [Event.startAll, .next (some 10), .next (some 11), .exit 11 0,
      .wait 11 0, .next none, .exit 10 1, .wait 10 0]
    Runs.Along System.step Meant events (System.boot daemonAndSetup [7]) ∧
      Attributed (Runs.run System.step events (System.boot daemonAndSetup [7])) := by
  intro events
  have h : Runs.Along System.step Meant events (System.boot daemonAndSetup [7]) := by
    decide +kernel
  exact ⟨h, attributed_of_meant daemonAndSetup [7] events h⟩

/-- The daemon exits while init waits for the oneshot unit. -/
def daemonExitsFirst : List Event :=
  [.startAll, .next (some 10), .next (some 11), .exit 10 1, .wait 10 0]

/-- The exit of the daemon is taken for that of the oneshot unit, and the
daemon stays recorded as running. -/
theorem not_attributed_daemonExitsFirst :
    ¬Attributed (Runs.run System.step daemonExitsFirst
      (System.boot daemonAndSetup [])) := by
  intro h
  have hexits : (Runs.run System.step daemonExitsFirst
      (System.boot daemonAndSetup [])).applied ≠
      (Runs.run System.step daemonExitsFirst
        (System.boot daemonAndSetup [])).reaped := by decide +kernel
  exact hexits h.exits

end RacOS.RacInit
