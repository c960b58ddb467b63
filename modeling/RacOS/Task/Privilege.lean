import RacOS.Task.Identity

/-!
# Dropping privileges

A root process that changes its user identifier to a non-zero one loses all
capabilities for good, and so do all processes that it and its descendants create
from then on.  What it has created before keeps the credentials of root.
-/

namespace RacOS.Tasks

open Program Security TaskTable

/-- The credentials of a process that has left root for a user. -/
structure Dropped (uid : UInt32) (creds : Credentials) : Prop where
  uid_eq : creds.uid = uid
  euid_eq : creds.euid = uid
  capEffective_eq : creds.capEffective = 0

namespace Dropped

variable {uid : UInt32} {creds creds' : Credentials}

theorem hasCap_eq_false (h : Dropped uid creds) (huid : uid ≠ 0) (cap : UInt8) :
    hasCap creds cap = false := by
  simp [hasCap, h.euid_eq, huid, h.capEffective_eq]

/-- Leaving root takes every effective capability. -/
theorem of_setuid (huid : uid ≠ 0) (hroot : creds.uid = 0) (heroot : creds.euid = 0)
    (h : setuid uid creds = .ok creds') : Dropped uid creds' := by
  have hcap : hasCap creds capSetuid = true := by simp [hasCap, heroot]
  simp only [setuid, hcap, if_true, dropForUidChange, hroot, ne_eq, huid,
    not_false_eq_true, and_self, Except.ok.injEq] at h
  rw [← h]
  exact ⟨rfl, rfl, rfl⟩

theorem setuid (huid : uid ≠ 0) (h : Dropped uid creds) {uid' : UInt32}
    (hset : Tasks.setuid uid' creds = .ok creds') : Dropped uid creds' := by
  simp only [Tasks.setuid, h.hasCap_eq_false huid, h.uid_eq, h.euid_eq,
    Bool.false_eq_true, if_false, or_self] at hset
  split at hset
  · rename_i heq
    subst heq
    simp only [dropForUidChange, huid, false_and, if_false, ne_eq, not_false_eq_true,
      true_and, Except.ok.injEq] at hset
    rw [← hset]
    exact ⟨rfl, rfl, h.capEffective_eq⟩
  · cases hset

theorem setgid (huid : uid ≠ 0) (h : Dropped uid creds) {gid : UInt32}
    (hset : Tasks.setgid gid creds = .ok creds') : Dropped uid creds' := by
  simp only [Tasks.setgid, h.hasCap_eq_false huid, Bool.false_eq_true, if_false] at hset
  split at hset
  · cases hset
    exact ⟨h.uid_eq, h.euid_eq, h.capEffective_eq⟩
  · cases hset

end Dropped

/-! ## Who a task belongs to -/

/-- The same program with the same credentials. -/
def Task.SameOwner (t t' : Task) : Prop := t'.user = t.user ∧ t'.creds = t.creds

theorem Task.Rescheduled.sameOwner {t t' : Task} (h : Rescheduled t t') : SameOwner t t' := by
  rcases h with rfl | rfl | rfl
  · exact ⟨rfl, rfl⟩
  · exact ⟨rfl, rfl⟩
  · unfold leave
    split <;> exact ⟨rfl, rfl⟩

theorem Task.sameOwner_wake (t : Task) : t.SameOwner t.wake := by
  unfold wake
  split <;> exact ⟨rfl, rfl⟩

theorem Task.SameOwner.refl {t : Task} : t.SameOwner t := ⟨rfl, rfl⟩

theorem Task.sameOwner_notify (sig : Signal) (t : Task) : t.SameOwner (t.notify sig) :=
  Task.sameOwner_wake { t with signals := t.signals.send sig }

theorem Task.SameOwner.trans {t t' t'' : Task} (h : t.SameOwner t')
    (h' : t'.SameOwner t'') : t.SameOwner t'' :=
  ⟨h'.1.trans h.1, h'.2.trans h.2⟩

/-- Every task that is there afterwards was there before and has the same
owner. -/
def OwnersKept (s s' : TaskTable) : Prop :=
  ∀ i t', s'.task i = some t' → ∃ t, s.task i = some t ∧ t.SameOwner t'

namespace OwnersKept

variable {s s' s'' : TaskTable}

theorem of_related
    (h : Slots.Related (fun _ => Task.SameOwner) s.tasks s'.tasks) : OwnersKept s s' :=
  fun _ _ ht' => h.of_get' ht'

theorem trans (h : OwnersKept s s') (h' : OwnersKept s' s'') : OwnersKept s s'' := by
  intro i t'' ht''
  obtain ⟨t', ht', hsame'⟩ := h' i t'' ht''
  obtain ⟨t, ht, hsame⟩ := h i t' ht'
  exact ⟨t, ht, hsame.trans hsame'⟩

theorem schedule : OwnersKept s s.schedule :=
  of_related ((related_schedule s).mono fun _ _ _ h => h.sameOwner)

theorem modifyCurrent {f : Task → Task} (hf : ∀ t : Task, t.SameOwner (f t)) :
    OwnersKept s (s.modifyCurrent f) :=
  of_related (Slots.related_modify (fun _ _ => .refl) fun t _ => hf t)

theorem reparent (pid : Pid) : OwnersKept s (s.reparent pid) := by
  unfold TaskTable.reparent
  dsimp only
  split
  · exact of_related (.refl fun _ _ => .refl)
  · refine of_related (Slots.related_map fun _ t => ?_)
    split <;> exact ⟨rfl, rfl⟩

theorem wakeParent (pid : Pid) : OwnersKept s (s.wakeParent pid) := by
  unfold TaskTable.wakeParent
  split
  · exact of_related (.refl fun _ _ => .refl)
  · exact of_related ((Slots.related_modifyFirst (fun _ _ => .refl)
      fun _ t _ => Task.sameOwner_wake t).trans (Slots.related_modifyFirst
        (fun _ _ => .refl) fun _ t _ => Task.sameOwner_notify _ t) fun _ _ _ _ => .trans)

theorem exitCurrent (status : Int32) : OwnersKept s (s.exitCurrent status) := by
  unfold TaskTable.exitCurrent
  split
  · refine OwnersKept.trans ?_ schedule
    refine OwnersKept.trans ?_ (wakeParent _)
    refine OwnersKept.trans ?_ (reparent _)
    exact modifyCurrent fun _ => ⟨rfl, rfl⟩
  · exact schedule

theorem blockAndReschedule (waiting : Option Wait) :
    OwnersKept s (s.blockAndReschedule waiting) := by
  refine OwnersKept.trans ?_ schedule
  exact modifyCurrent fun _ => ⟨rfl, rfl⟩

theorem clear (i : ℕ) : OwnersKept s { s with tasks := Slots.clear i s.tasks } := by
  intro j t ht
  rw [task, Slots.get_clear] at ht
  split at ht
  · cases ht
  · exact ⟨t, ht, rfl, rfl⟩

end OwnersKept

/-! ## The descendants of a process -/

/-- The table with the set of slots that hold a process or one of its
descendants. -/
structure Lineage where
  table : TaskTable
  family : ℕ → Bool

/-- A slot that was empty holds, if anything, a task that the current one has
just created. -/
def Lineage.step (e : Event) (l : Lineage) : Lineage where
  table := l.table.step e
  family i := if (l.table.task i).isNone then l.family l.table.current else l.family i

/-- Every process of the family has dropped its privileges. -/
structure Lineage.Harmless (uid : UInt32) (l : Lineage) : Prop where
  scheduled : Scheduled l.table
  dropped : ∀ i t, l.family i → l.table.task i = some t → t.user = true ∧ Dropped uid t.creds

theorem Dropped.touched {uid : UInt32} (huid : uid ≠ 0) {e : Event} {s : TaskTable}
    {i : ℕ} {t t' : Task} (h : Task.Touched e s i t t') (hdropped : Dropped uid t.creds) :
    Dropped uid t'.creds := by
  rcases h.creds with hsame | ⟨-, ⟨uid', -, hset⟩ | ⟨gid, -, hset⟩⟩
  · rwa [hsame]
  · exact hdropped.setuid huid hset
  · exact hdropped.setgid huid hset

/-- One step of any process keeps the family harmless. -/
theorem Lineage.Harmless.step {uid : UInt32} (huid : uid ≠ 0) {l : Lineage}
    (h : l.Harmless uid) (e : Event) : (l.step e).Harmless uid := by
  refine ⟨h.scheduled.step e, ?_⟩
  obtain ⟨t, ht, hrunning⟩ := h.scheduled.current
  -- The tasks of the family that were there before stay harmless.
  have hkept {s₀ s' : TaskTable} (htouch : Touching e l.table s₀)
      (howners : OwnersKept s₀ s') {i : ℕ} {t' : Task} (ht' : s'.task i = some t')
      (hfamily : (l.step e).family i) : t'.user = true ∧ Dropped uid t'.creds := by
    obtain ⟨t₀, ht₀, huser, hcreds⟩ := howners i t' ht'
    obtain ⟨t, ht, hchange⟩ := htouch.tasks.of_get' ht₀
    have hbefore : l.family i := by
      simpa [Lineage.step, show l.table.task i = some t from ht] using hfamily
    obtain ⟨hu, hd⟩ := h.dropped i t hbefore ht
    rw [huser, hcreds, hchange.user]
    exact ⟨hu, hd.touched huid hchange⟩
  have hself {s' : TaskTable} : OwnersKept s' s' := fun i t ht => ⟨t, ht, rfl, rfl⟩
  intro i t' hfamily ht'
  have hstep : (l.step e).table = l.table.step e := rfl
  rw [hstep] at ht'
  cases step_outcome ht hrunning e with
  | touched htouch => exact hkept htouch hself ht' hfamily
  | born new hbirth hcurrent htasks =>
    rw [task, htasks] at ht'
    rcases Slots.get_place_cases ht' with ⟨rfl, rfl⟩ | ht'
    · have hparent : l.family l.table.current := by
        simpa [Lineage.step, Slots.get_firstEmpty] using hfamily
      obtain ⟨hu, hd⟩ := h.dropped _ t hparent ht
      have hnotKernel : ¬(l.table.currentTask.any (!·.user)) := by simp [ht, hu]
      cases hbirth with
      | kernel stack hkernel => exact absurd hkernel hnotKernel
      | booted image hkernel => exact absurd hkernel hnotKernel
      | forked parent pageTable stack hcur =>
        cases ht.symm.trans hcur
        exact ⟨rfl, hd⟩
      | cloned parent flags copy pageTable stack hcur htable =>
        cases ht.symm.trans hcur
        exact ⟨rfl, hd⟩
      | spawned parent image hcur =>
        cases ht.symm.trans hcur
        exact ⟨rfl, hd⟩
    · have hbefore : l.family i := by
        simpa [Lineage.step, show l.table.task i = some t' from ht'] using hfamily
      exact h.dropped i t' hbefore ht'
  | scheduled s₀ htouch hs' =>
    rw [hs'] at ht'
    exact hkept htouch .schedule ht' hfamily
  | blocked waiting s₀ htouch huser hnone hparent hs' =>
    rw [hs'] at ht'
    exact hkept htouch (.blockAndReschedule waiting) ht' hfamily
  | exited status s₀ htouch huser hends hs' =>
    rw [hs'] at ht'
    exact hkept htouch (.exitCurrent status) ht' hfamily
  | reaped j child s₀ htouch hchild hzombie hs' =>
    rw [hs'] at ht'
    exact hkept htouch (.clear j) ht' hfamily

/-- The process that makes the current call, and the table after the call. -/
def Lineage.after (e : Event) (s : TaskTable) : Lineage where
  table := s.step e
  family i := i = s.current

end RacOS.Tasks
