import RacOS.Block.CacheTransparency

/-!
# The no-steal rule

While a recording is open, no sector it lists reaches the device, neither by
eviction nor by `flush`.  So a recording that began with nothing dirty can be
abandoned: dropping its cached copies brings back the contents of its start.
Nothing here assumes a fault-free device.
-/

namespace RacOS.Block.BlockCache

open Program

/-! ## What programs do to a recording -/

/-- What reads and writes inside an open recording do to the cache: outside the
recorded sectors the contents stay, and only sectors dirty from before and not
recorded are written to the device. -/
structure Stages (c c' : BlockCache) : Prop where
  inv : c'.Inv
  sectorCount : c'.device.sectorCount = c.device.sectorCount
  faults : c'.device.faults = c.device.faults
  recording : c'.recording.isSome = c.recording.isSome
  grows : ∀ l, c.isRecorded l = true → c'.isRecorded l = true
  view : ∀ l, c'.isRecorded l = false → c'.view l = c.view l
  dirty : ∀ l, c'.DirtyAt l → c'.isRecorded l = false → c.DirtyAt l
  writes : ∃ ws, c'.device.writes = c.device.writes ++ ws ∧
    c'.device.storage = WriteLog.apply c.device.storage ws ∧
    ∀ w ∈ ws, c.DirtyAt w.1 ∧ c.isRecorded w.1 = false ∧ w.2 = c.view w.1

variable {c c' : BlockCache} {lba : ℕ}

namespace Stages

theorem refl (hc : c.Inv) : Stages c c :=
  { inv := hc
    sectorCount := rfl
    faults := rfl
    recording := rfl
    grows := fun _ h => h
    view := fun _ _ => rfl
    dirty := fun _ h _ => h
    writes := ⟨[], by simp⟩ }

theorem not_isRecorded (h : Stages c c') {l : ℕ} (hl : c'.isRecorded l = false) :
    c.isRecorded l = false := by
  cases hr : c.isRecorded l with
  | false => rfl
  | true =>
    rw [h.grows l hr] at hl
    cases hl

theorem trans {a b c : BlockCache} (hab : Stages a b) (hbc : Stages b c) : Stages a c := by
  refine ⟨hbc.inv, hbc.sectorCount.trans hab.sectorCount,
    hbc.faults.trans hab.faults, hbc.recording.trans hab.recording,
    fun l h => hbc.grows l (hab.grows l h), ?_, ?_, ?_⟩
  · intro l hl
    rw [hbc.view l hl, hab.view l (hbc.not_isRecorded hl)]
  · intro l hd hl
    have hl' := hbc.not_isRecorded hl
    exact hab.dirty l (hbc.dirty l hd hl) hl'
  · obtain ⟨ws, hw, hs, hws⟩ := hab.writes
    obtain ⟨vs, hv, ht, hvs⟩ := hbc.writes
    refine ⟨ws ++ vs, by rw [hv, hw, List.append_assoc],
      by rw [ht, hs, WriteLog.apply_append], ?_⟩
    intro w hmem
    rcases List.mem_append.mp hmem with hmem | hmem
    · exact hws w hmem
    · obtain ⟨hd, hr, hval⟩ := hvs w hmem
      exact ⟨hab.dirty _ hd hr, hab.not_isRecorded hr, by rw [hval, hab.view _ hr]⟩

theorem of_keeps (h : Keeps c c') : Stages c c' :=
  { inv := h.inv
    sectorCount := h.sectorCount
    faults := h.faults
    recording := by rw [h.recording]
    grows := fun l hl => by rw [h.isRecorded]; exact hl
    view := fun l _ => by rw [h.view]
    dirty := fun l hd _ => h.dirty l hd
    writes := h.writes }

theorem of_noted (hc : c.Inv) (lba : ℕ) : Stages c (c.noted lba) :=
  { inv := hc.noted lba
    sectorCount := rfl
    faults := rfl
    recording := by simp [noted_recording, noteWrite]
    grows := fun l hl => by simp [noted_isRecorded, hl]
    view := fun l _ => by rw [noted_view]
    dirty := fun l hd _ => (noted_dirtyAt c lba l).mp hd
    writes := ⟨[], by simp⟩ }

theorem of_stores {data : Sector} (h : Stores lba data c c') (hr : c.recording.isSome = true) :
    Stages c c' := by
  have hrec : ∀ l, c'.isRecorded l = (c.isRecorded l || l == lba) := by
    intro l
    rw [isRecorded_congr h.recording, noteWrite_isRecorded, hr]
    simp
  refine ⟨h.inv, h.sectorCount, h.faults, ?_, ?_, ?_, ?_, ?_⟩
  · simp [h.recording, noteWrite]
  · intro l hl
    simp [hrec, hl]
  · intro l hl
    have hne : l ≠ lba := by
      rintro rfl
      simp [hrec] at hl
    rw [h.view, WriteLog.put_of_ne _ _ hne]
  · intro l hd hl
    rcases h.dirty l hd with rfl | hd
    · simp [hrec] at hl
    · exact hd
  · obtain ⟨ws, hw, hs, hws⟩ := h.writes
    refine ⟨ws, hw, hs, fun w hmem => ?_⟩
    obtain ⟨hd, hn, hv⟩ := hws w hmem
    rw [noteWrite_isRecorded] at hn
    exact ⟨hd, by simp_all, hv⟩

/-- A recorded sector that was not dirty when the recording began has kept its
contents on the device. -/
theorem storage_of_not_dirtyAt (h : Stages c c') {l : ℕ} (hd : ¬c.DirtyAt l) :
    c'.device.storage l = c.device.storage l := by
  obtain ⟨ws, -, hs, hws⟩ := h.writes
  rw [hs]
  apply WriteLog.apply_of_notMem
  rintro w hw rfl
  exact hd (hws w hw).1

/-- Abandoning the recording brings back the contents of its start, if no
recorded sector was dirty then. -/
theorem view_discardRecorded (h : Stages c c') (hc : c.Inv)
    (hd : ∀ l, c'.isRecorded l = true → ¬c.DirtyAt l) (l : ℕ) :
    c'.discardRecorded.view l = c.view l := by
  obtain ⟨hrec, hother⟩ := h.inv.view_discardRecorded l
  cases hl : c'.isRecorded l with
  | true =>
    rw [hrec hl, h.storage_of_not_dirtyAt (hd l hl), hc.view_of_not_dirtyAt (hd l hl)]
  | false => rw [hother hl, h.view l hl]

end Stages

theorem fetchSector_stages (hc : c.Inv) (lba : ℕ) : Stages c (final (fetchSector lba) c) :=
  .of_keeps (fetchSector_keeps hc lba)

/-- A store succeeds, is refused at once, or fails after the sector has been noted. -/
theorem final_storeSector_rule {P : BlockCache → Prop} (hc : c.Inv) {data : Sector}
    (hok : ∀ c', Stores lba data c c' → P c') (hsame : P c)
    (hnoted : ∀ c', Keeps (c.noted lba) c' → P c') : P (final (storeSector lba data) c) := by
  cases h : storeSector lba data c with
  | ok u c' =>
    rw [final_of_ok h]
    exact hok c' (storeSector_ok hc h)
  | error e c' =>
    rw [final_of_error h]
    rcases (storeSector_error hc h).1 with rfl | ⟨-, hk⟩
    · exact hsame
    · exact hnoted c' hk

theorem storeSector_stages (hc : c.Inv) (hr : c.recording.isSome = true) (lba : ℕ) (data : Sector) :
    Stages c (final (storeSector lba data) c) :=
  final_storeSector_rule hc (fun _ hs => .of_stores hs hr) (.refl hc) fun _ hk =>
    (Stages.of_noted hc lba).trans (.of_keeps hk)

theorem flush_stages (hc : c.Inv) : Stages c (final flush c) :=
  .of_keeps (flush_final hc).1

/-! ## Reachable caches -/

/-- The caches that arise from the public operations, with any device. -/
inductive Reachable : BlockCache → Prop
  | new (device : BlockDevice) : Reachable (new device)
  | call {c : BlockCache} (call : CacheCall) : Reachable c → Reachable (final call.run c)
  | peekSector {c : BlockCache} (lba : ℕ) : Reachable c → Reachable (final (peekSector lba) c)
  | beginRecording {c : BlockCache} : Reachable c → Reachable c.beginRecording
  | endRecording {c : BlockCache} : Reachable c → Reachable c.endRecording
  | discardRecorded {c : BlockCache} : Reachable c → Reachable c.discardRecorded

theorem Inv.final_storeSector (hc : c.Inv) (lba : ℕ) (data : Sector) :
    (final (storeSector lba data) c).Inv :=
  final_storeSector_rule hc (fun _ hs => hs.inv) hc fun _ hk => hk.inv

/-- The calls that go through the cache. -/
def isBuffered : CacheCall → Bool
  | .readSector _ _ | .writeSector _ _ | .flush => true
  | .writeThrough _ _ | .readThrough _ | .flushAndInvalidate => false

variable {call : CacheCall}

/-- A call that goes through the cache fetches a sector, stores one, flushes, or does nothing. -/
theorem final_run_rule {P : BlockCache → Prop} (hc : P c)
    (hfetch : ∀ lba, P (final (fetchSector lba) c))
    (hstore : ∀ lba data, P (final (storeSector lba data) c)) (hflush : P (final flush c))
    (hcall : isBuffered call = true) : P (final call.run c) := by
  cases call with
  | readSector lba outLen =>
    unfold CacheCall.run BlockCache.readSector
    rw [final_bind_pure]
    exact final_require_rule hc fun _ => hfetch lba
  | writeSector lba input => exact final_require_rule hc fun _ => hstore lba _
  | flush => exact hflush
  | writeThrough lba data => cases hcall
  | readThrough lba => cases hcall
  | flushAndInvalidate => cases hcall

theorem Inv.final_buffered (hc : c.Inv) (hcall : isBuffered call = true) : (final call.run c).Inv :=
  final_run_rule hc (fun lba => (fetchSector_keeps hc lba).inv) hc.final_storeSector
    (flush_final hc).1.inv hcall

theorem Inv.final_run (hc : c.Inv) (call : CacheCall) : (final call.run c).Inv := by
  cases call with
  | readSector lba outLen => exact hc.final_buffered rfl
  | writeSector lba input => exact hc.final_buffered rfl
  | flush => exact hc.final_buffered rfl
  | writeThrough lba data => exact hc.final_writeThrough lba data
  | readThrough lba =>
    unfold CacheCall.run
    rw [final_bind_pure]
    exact (readThrough_keeps hc lba).inv
  | flushAndInvalidate =>
    unfold CacheCall.run BlockCache.flushAndInvalidate
    rw [final_bind]
    have hk := (flush_final hc).1
    unfold final at hk
    split
    next h =>
      rw [final_modify]
      exact ⟨by simp, by simp, by simp, by simp⟩
    next h =>
      rw [h] at hk
      exact hk.inv

theorem Reachable.inv (h : Reachable c) : c.Inv := by
  induction h with
  | new device => exact inv_new device
  | call call _ ih => exact ih.final_run call
  | peekSector lba _ ih => exact (peekSector_keeps ih lba).inv
  | beginRecording _ ih => exact ⟨ih.nodup, ih.size, ih.range, ih.clean⟩
  | endRecording _ ih => exact ⟨ih.nodup, ih.size, ih.range, ih.clean⟩
  | discardRecorded _ ih => exact ih.discardRecorded

/-! ## Runs inside a recording -/

/-- The cache after some calls, whatever their outcomes. -/
def afterCalls (c : BlockCache) (calls : List CacheCall) : BlockCache :=
  calls.foldl (fun c call => final call.run c) c

theorem final_run_stages (hc : c.Inv) (hr : c.recording.isSome = true)
    (hcall : isBuffered call = true) : Stages c (final call.run c) :=
  final_run_rule (.refl hc) (fetchSector_stages hc) (storeSector_stages hc hr) (flush_stages hc)
    hcall

theorem afterCalls_stages (hc : c.Inv) (hr : c.recording.isSome = true) {calls : List CacheCall}
    (hcalls : ∀ call ∈ calls, isBuffered call = true) : Stages c (afterCalls c calls) := by
  unfold afterCalls
  induction calls using List.reverseRecOn with
  | nil => exact .refl hc
  | append_singleton calls call ih =>
    have hst := ih fun k hk => hcalls k (List.mem_append_left _ hk)
    rw [List.foldl_concat]
    exact hst.trans (final_run_stages hst.inv (hst.recording.trans hr)
      (hcalls call (by simp)))

theorem Inv.beginRecording (hc : c.Inv) : c.beginRecording.Inv :=
  ⟨hc.nodup, hc.size, hc.range, hc.clean⟩

/-- From `c` to `c'`, no sector was written to the device that `c'` lists as
recorded. -/
def SparesRecorded (c c' : BlockCache) : Prop :=
  ∃ ws, c'.device.writes = c.device.writes ++ ws ∧ ∀ w ∈ ws, c'.isRecorded w.1 = false

theorem SparesRecorded.refl (c : BlockCache) : SparesRecorded c c :=
  ⟨[], by simp⟩

theorem Keeps.sparesRecorded (h : Keeps c c') : SparesRecorded c c' := by
  obtain ⟨ws, hw, -, hws⟩ := h.writes
  refine ⟨ws, hw, fun w hmem => ?_⟩
  rw [h.isRecorded]
  exact (hws w hmem).2.1

theorem storeSector_sparesRecorded (hc : c.Inv) (lba : ℕ) (data : Sector) :
    SparesRecorded c (final (storeSector lba data) c) := by
  refine final_storeSector_rule hc (fun c' hs => ?_) (.refl c) fun _ hk => hk.sparesRecorded
  obtain ⟨ws, hw, -, hws⟩ := hs.writes
  refine ⟨ws, hw, fun w hmem => ?_⟩
  rw [isRecorded_congr hs.recording]
  exact (hws w hmem).2.1

theorem final_run_sparesRecorded (hc : c.Inv) (hcall : isBuffered call = true) :
    SparesRecorded c (final call.run c) :=
  final_run_rule (.refl c) (fun lba => (fetchSector_keeps hc lba).sparesRecorded)
    (storeSector_sparesRecorded hc) (flush_final hc).1.sparesRecorded hcall

theorem mem_recorded_iff : lba ∈ c.recorded ↔ c.isRecorded lba = true := by
  unfold recorded isRecorded
  cases c.recording with
  | none => simp
  | some list => simp

/-- While a recording is open, no call writes a recorded sector to the device;
and if the recording began with nothing dirty, abandoning it makes every sector
read back as it did when it began. -/
theorem noSteal {c : BlockCache} (hreach : Reachable c)
    (calls : List CacheCall) (hcalls : ∀ call ∈ calls, isBuffered call = true)
    (next : CacheCall) (hnext : isBuffered next = true) :
    let c₁ := afterCalls c.beginRecording calls
    let c₂ := final next.run c₁
    (∃ ws, c₂.device.writes = c₁.device.writes ++ ws ∧
      ∀ w ∈ ws, w.1 ∉ c₁.recorded ∧ w.1 ∉ c₂.recorded) ∧
    ((∀ lba, ¬c.DirtyAt lba) → (∀ lba, c₁.discardRecorded.view lba = c.view lba) ∧
      ∀ lba outLen out c',
        readSector lba outLen c₁.discardRecorded = .ok out c' → out = c.view lba) := by
  intro c₁ c₂
  have hc := hreach.inv
  have hbegin := hc.beginRecording
  have hrun : Stages c.beginRecording c₁ := afterCalls_stages hbegin rfl hcalls
  have hnextRun : Stages c₁ c₂ := final_run_stages hrun.inv hrun.recording hnext
  refine ⟨?_, fun hclean => ?_⟩
  · obtain ⟨ws, hw, hws⟩ : SparesRecorded c₁ c₂ :=
      final_run_sparesRecorded hrun.inv hnext
    refine ⟨ws, hw, fun w hmem => ?_⟩
    have h₂ := hws w hmem
    have h₁ := hnextRun.not_isRecorded h₂
    rw [mem_recorded_iff, mem_recorded_iff, h₁, h₂]
    simp
  · have hview : ∀ lba, c₁.discardRecorded.view lba = c.view lba :=
      hrun.view_discardRecorded hbegin fun l _ => hclean l
    refine ⟨hview, fun lba outLen out c' hread => ?_⟩
    obtain ⟨_, s, hreq, hfetch⟩ := bind_ok_iff.mp hread
    obtain ⟨-, rfl⟩ := require_ok_iff.mp hreq
    rw [(fetchSector_ok hrun.inv.discardRecorded hfetch).2.1, hview]

theorem noSteal_oneSector : Reachable (new CacheCall.oneSector) ∧
    (∀ lba, (afterCalls (new CacheCall.oneSector).beginRecording
      [.writeSector 0 (List.replicate 512 1)]).discardRecorded.view lba =
        (new CacheCall.oneSector).view lba) := by
  refine ⟨.new _, ?_⟩
  apply ((noSteal (.new CacheCall.oneSector)
    [.writeSector 0 (List.replicate 512 1)] (by decide) .flush rfl).2 ?_).1
  rintro lba ⟨e, he, -⟩
  cases he

end RacOS.Block.BlockCache
