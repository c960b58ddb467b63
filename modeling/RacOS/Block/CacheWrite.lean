import RacOS.Block.CacheRead

/-!
# Writing through the cache

A successful write gives one sector its new logical contents, marks it dirty
and notes it in the open recording; a failed one leaves the contents alone.
-/

namespace RacOS.Block.BlockCache

open Program

theorem noteWrite_isRecorded (c : BlockCache) (lba l : ℕ) :
    (c.noteWrite lba).isRecorded l = (c.isRecorded l || (c.recording.isSome && l == lba)) := by
  unfold noteWrite
  cases hr : c.recording with
  | none => simp [isRecorded, hr]
  | some list =>
    by_cases hmem : lba ∈ list
    · by_cases hl : l = lba
      · subst hl
        simp [isRecorded, hr, hmem]
      · simp [isRecorded, hr, hmem, hl]
    · by_cases hl : l = lba <;> simp [isRecorded, hr, hmem, hl]

/-- The cache after counting an access and noting that `lba` is written. -/
def noted (c : BlockCache) (lba : ℕ) : BlockCache :=
  { c with seq := c.seq + 1 }.noteWrite lba

variable (c : BlockCache) (lba : ℕ)

@[simp] theorem noted_entries : (c.noted lba).entries = c.entries := rfl

@[simp] theorem noted_device : (c.noted lba).device = c.device := rfl

@[simp] theorem push_device (e : CacheEntry) : (c.push e).device = c.device := rfl

@[simp] theorem noted_view : (c.noted lba).view = c.view := by
  funext l
  simp [view, lookup]

theorem noted_dirtyAt (l : ℕ) : (c.noted lba).DirtyAt l ↔ c.DirtyAt l := by
  simp [DirtyAt]

theorem noted_isRecorded (l : ℕ) :
    (c.noted lba).isRecorded l = (c.isRecorded l || (c.recording.isSome && l == lba)) := by
  unfold noted
  rw [noteWrite_isRecorded]
  rfl

theorem noted_recording :
    (c.noted lba).recording = (c.noteWrite lba).recording := rfl

variable {c : BlockCache}

theorem Inv.noted (hc : c.Inv) (lba : ℕ) : (c.noted lba).Inv := by
  constructor
  · simpa using hc.nodup
  · simpa using hc.size
  · simpa using hc.range
  · simpa using hc.clean

theorem storeSector_cases (lba : ℕ) (data : Sector) (c : BlockCache) :
    (c.device.sectorCount ≤ lba ∧ storeSector lba data c = .error .outOfRange c) ∨
    (∃ e, lba < c.device.sectorCount ∧ c.lookup lba = some e ∧
      storeSector lba data c = .ok () ((c.noted lba).updateEntry lba fun e =>
        { e with data, dirty := true, accessSeq := c.seq + 1 })) ∨
    (lba < c.device.sectorCount ∧ c.lookup lba = none ∧
      ((∃ err c₂, makeRoom (c.noted lba) = .error err c₂ ∧ storeSector lba data c = .error err c₂) ∨
        (∃ c₂, makeRoom (c.noted lba) = .ok () c₂ ∧
          storeSector lba data c = .ok () (c₂.push ⟨lba, data, true, c.seq + 1⟩)))) := by
  by_cases hlba : lba < c.device.sectorCount
  · have hreq : (require (lba < c.device.sectorCount) BlockError.outOfRange :
        CacheM Unit) c = .ok () c := require_ok_iff.mpr ⟨hlba, rfl⟩
    cases hl : c.lookup lba with
    | some e =>
      refine Or.inr (Or.inl ⟨e, hlba, rfl, ?_⟩)
      change (require _ _ >>= _ : CacheM Unit) c = _
      rw [bind_of_ok hreq]
      simp only [hl]
      rfl
    | none =>
      refine Or.inr (Or.inr ⟨hlba, rfl, ?_⟩)
      have hrun : storeSector lba data c =
          (do
            makeRoom
            modify fun c' => c'.push ⟨lba, data, true, c.seq + 1⟩ : CacheM Unit)
            (c.noted lba) := by
        change (require _ _ >>= _ : CacheM Unit) c = _
        rw [bind_of_ok hreq]
        simp only [hl]
        rfl
      rw [hrun]
      cases hm : makeRoom (c.noted lba) with
      | error err c₂ => exact Or.inl ⟨err, c₂, rfl, bind_of_error hm⟩
      | ok u c₂ =>
        refine Or.inr ⟨c₂, rfl, ?_⟩
        rw [bind_of_ok hm]
        rfl
  · refine Or.inl ⟨by omega, ?_⟩
    change (require _ _ >>= _ : CacheM Unit) c = _
    exact bind_of_error (require_error_iff.mpr ⟨hlba, rfl, rfl⟩)

/-- What a successful write does: the sector gets its new logical contents and
becomes dirty; everything else is as `Keeps` has it, with the written sector
already counted as recorded. -/
structure Stores (lba : ℕ) (data : Sector) (c c' : BlockCache) : Prop where
  range : lba < c.device.sectorCount
  inv : c'.Inv
  view : c'.view = WriteLog.put c.view lba data
  recording : c'.recording = (c.noteWrite lba).recording
  sectorCount : c'.device.sectorCount = c.device.sectorCount
  faults : c'.device.faults = c.device.faults
  dirty : ∀ l, c'.DirtyAt l → l = lba ∨ c.DirtyAt l
  stored : c'.DirtyAt lba
  pinned : ∀ l, c.DirtyAt l → c.isRecorded l = true → c'.DirtyAt l
  writes : ∃ ws, c'.device.writes = c.device.writes ++ ws ∧
    c'.device.storage = WriteLog.apply c.device.storage ws ∧
    ∀ w ∈ ws, c.DirtyAt w.1 ∧ (c.noteWrite lba).isRecorded w.1 = false ∧ w.2 = c.view w.1

variable {data : Sector} {lba seq : ℕ}

/-- The entry of `lba` has the new data and is dirty, and the other entries are the same. -/
structure Replaces (lba : ℕ) (data : Sector) (c c' : BlockCache) : Prop where
  device : c'.device = c.device
  recording : c'.recording = c.recording
  nodup : (c'.entries.map (·.lba)).Nodup
  size : c'.entries.length ≤ maxCachedSectors
  stored : c'.DirtyAt lba
  back : ∀ e ∈ c'.entries,
    e.lba = lba ∧ e.data = data ∧ e.dirty = true ∨ e ∈ c.entries ∧ e.lba ≠ lba
  forth : ∀ e ∈ c.entries, e.lba ≠ lba → e ∈ c'.entries

theorem Inv.replaces_updateEntry (hc : c.Inv) {e₀ : CacheEntry} (hl : c.lookup lba = some e₀) :
    Replaces lba data c (c.updateEntry lba fun e =>
      { e with data, dirty := true, accessSeq := seq }) := by
  generalize hc' : c.updateEntry lba (fun e =>
      { e with data, dirty := true, accessSeq := seq }) = c'
  have hentries : c'.entries = Vec.updateFirst (fun e => e.lba == lba)
      (fun e => { e with data, dirty := true, accessSeq := seq }) c.entries := by
    rw [← hc']
    rfl
  have hnodup : (c'.entries.map (·.lba)).Nodup := by
    rw [hentries, Vec.map_updateFirst_of_eq]
    · exact hc.nodup
    · exact fun e _ => rfl
  have hnew : c'.lookup lba = some { e₀ with data, dirty := true, accessSeq := seq } := by
    simp only [lookup, hentries] at hl ⊢
    rw [Vec.find?_updateFirst, hl]
    · rfl
    · exact fun e he => he
  obtain ⟨hnewmem, hnewlba⟩ := mem_of_lookup hnew
  refine
    { device := by rw [← hc']; rfl
      recording := by rw [← hc']; rfl
      nodup := hnodup
      size := by rw [hentries, Vec.length_updateFirst]; exact hc.size
      stored := ⟨_, hnewmem, hnewlba, rfl⟩
      back := fun e he => ?_
      forth := fun e he hne => ?_ }
  · by_cases hlba : e.lba = lba
    · obtain rfl := eq_of_lba_eq hnodup he hnewmem (hlba.trans hnewlba.symm)
      exact Or.inl ⟨hlba, rfl, rfl⟩
    · rw [hentries] at he
      rcases Vec.mem_updateFirst he with he | ⟨e, he, hp, rfl⟩
      · exact Or.inr ⟨he, hlba⟩
      · exact absurd (by simpa using hp) hlba
  · rw [hentries]
    exact Vec.mem_updateFirst_of_not he (by simpa using hne)

theorem Inv.replaces_push (hc : c.Inv) (hroom : c.entries.length < maxCachedSectors)
    (hnew : ∀ e ∈ c.entries, e.lba ≠ lba) :
    Replaces lba data c (c.push ⟨lba, data, true, seq⟩) where
  device := rfl
  recording := rfl
  nodup := by
    simp only [push, List.map_append, List.map_cons, List.map_nil]
    refine hc.nodup.append (List.nodup_singleton _) ?_
    simpa using hnew
  size := by
    simp only [push, List.length_append, List.length_singleton]
    omega
  stored := ⟨⟨lba, data, true, seq⟩, by simp [push], rfl, rfl⟩
  back := by
    intro e he
    rcases List.mem_append.mp he with he | he
    · exact Or.inr ⟨he, hnew e he⟩
    · rw [List.mem_singleton.mp he]
      exact Or.inl ⟨rfl, rfl, rfl⟩
  forth := fun e he _ => List.mem_append_left _ he

/-- A write that makes room first, and then replaces the entry of its sector. -/
theorem Keeps.stores {c₂ c' : BlockCache} (hk : Keeps (c.noted lba) c₂)
    (hlba : lba < c.device.sectorCount) (h : Replaces lba data c₂ c') : Stores lba data c c' := by
  have hsc : c₂.device.sectorCount = c.device.sectorCount := by
    rw [hk.sectorCount, noted_device]
  have hinv : c'.Inv := by
    refine ⟨h.nodup, h.size, fun e he => ?_, fun e he hcl => ?_⟩
    · rw [h.device]
      rcases h.back e he with ⟨hl, -⟩ | ⟨he, -⟩
      · rwa [hl, hsc]
      · exact hk.inv.range e he
    · rw [h.device]
      rcases h.back e he with ⟨-, -, hd⟩ | ⟨he, -⟩
      · simp [hd] at hcl
      · exact hk.inv.clean e he hcl
  refine
    { range := hlba
      inv := hinv
      view := ?_
      recording := h.recording.trans (hk.recording.trans (noted_recording c lba))
      sectorCount := by rw [h.device, hsc]
      faults := by rw [h.device, hk.faults, noted_device]
      dirty := ?_
      stored := h.stored
      pinned := ?_
      writes := ?_ }
  · rw [← noted_view c lba, ← hk.view]
    apply hinv.view_eq
    · intro e he
      rcases h.back e he with ⟨hl, hd, -⟩ | ⟨he, hne⟩
      · rw [hl, hd, WriteLog.put_same]
      · rw [WriteLog.put_of_ne _ _ hne, hk.inv.view_of_mem he]
    · intro l hnone
      obtain ⟨e, he, hl, -⟩ := h.stored
      have hne : l ≠ lba := fun heq => hnone e he (hl.trans heq.symm)
      rw [WriteLog.put_of_ne _ _ hne, h.device, view_of_lookup_none]
      exact lookup_eq_none_iff.mpr fun e he hel => hnone e (h.forth e he (by rwa [hel])) hel
  · rintro l ⟨e, he, hl, hd⟩
    rcases h.back e he with ⟨heq, -⟩ | ⟨he, -⟩
    · exact Or.inl (hl.symm.trans heq)
    · exact Or.inr ((noted_dirtyAt c lba l).mp (hk.dirty l ⟨e, he, hl, hd⟩))
  · intro l hd hr
    by_cases hne : l = lba
    · exact hne ▸ h.stored
    · have hr' : (c.noted lba).isRecorded l = true := by
        rw [noted_isRecorded, hr, Bool.true_or]
      obtain ⟨e, he, hl, hed⟩ := hk.pinned l ((noted_dirtyAt c lba l).mpr hd) hr'
      exact ⟨e, h.forth e he (by rwa [hl]), hl, hed⟩
  · obtain ⟨ws, hw, hs, hws⟩ := hk.writes
    refine ⟨ws, by rw [h.device]; exact hw, by rw [h.device]; exact hs, fun w hw => ?_⟩
    obtain ⟨hd, hr, hv⟩ := hws w hw
    refine ⟨(noted_dirtyAt c lba _).mp hd, ?_, by rw [hv, noted_view]⟩
    rwa [isRecorded_congr (noted_recording c lba)] at hr

variable {c' : BlockCache}

/-- A successful write gives the sector its new logical contents. -/
theorem storeSector_ok {u : Unit} (hc : c.Inv) (h : storeSector lba data c = .ok u c') :
    Stores lba data c c' := by
  rcases storeSector_cases lba data c with ⟨-, hrun⟩ | ⟨e, hlba, hl, hrun⟩ |
    ⟨hlba, hl, ⟨err, c₂, -, hrun⟩ | ⟨c₂, hm, hrun⟩⟩
  · rw [hrun] at h
    cases h
  · rw [hrun] at h
    cases h
    exact (Keeps.refl (hc.noted lba)).stores hlba ((hc.noted lba).replaces_updateEntry hl)
  · rw [hrun] at h
    cases h
  · rw [hrun] at h
    cases h
    obtain ⟨hk, hroom, hmem⟩ := makeRoom_ok (hc.noted lba) hm
    refine hk.stores hlba (hk.inv.replaces_push hroom fun e he => ?_)
    have := hmem e he
    rw [noted_entries] at this
    exact lookup_eq_none_iff.mp hl e this

/-- A failed write leaves the logical contents alone; the sector may have been
noted as recorded.  Without device faults it fails, for a sector of the
device, only when the sector is not cached and the cache is full of pinned
entries. -/
theorem storeSector_error {err : BlockError} (hc : c.Inv)
    (h : storeSector lba data c = .error err c') :
    (c' = c ∨ lba < c.device.sectorCount ∧ Keeps (c.noted lba) c') ∧ c'.entries = c.entries ∧
      (c.device.FaultFree → lba < c.device.sectorCount →
        c.lookup lba = none ∧ (c.noted lba).AllPinned ∧ maxCachedSectors ≤ c.entries.length) := by
  rcases storeSector_cases lba data c with ⟨hlba, hrun⟩ | ⟨e, hlba, hl, hrun⟩ |
    ⟨hlba, hl, ⟨err', c₂, hm, hrun⟩ | ⟨c₂, hm, hrun⟩⟩
  · rw [hrun] at h
    cases h
    exact ⟨Or.inl rfl, rfl, fun _ hlt => by omega⟩
  · rw [hrun] at h
    cases h
  · rw [hrun] at h
    cases h
    obtain ⟨hk, he, hp⟩ := makeRoom_error (hc.noted lba) hm
    refine ⟨Or.inr ⟨hlba, hk⟩, by simpa using he, fun hff _ => ?_⟩
    have := hp (by simpa using hff)
    exact ⟨hl, this.1, by simpa using this.2⟩
  · rw [hrun] at h
    cases h

end RacOS.Block.BlockCache
