import RacOS.Block.CacheView

/-!
# Reading through the cache

Eviction and reading keep the logical contents, whatever their outcome.
Without device faults they fail only when the cache is full of pinned entries.
-/

namespace RacOS.Block.BlockCache

open Program

/-! ## Eviction -/

variable {pinned : CacheEntry → Bool} {es : List CacheEntry} {lru : Option (ℕ × CacheEntry)}
  {e : CacheEntry}

theorem lruScan_some {i k : ℕ} (h : lruScan pinned es i lru = some (k, e)) :
    lru = some (k, e) ∨ ∃ j, es[j]? = some e ∧ k = i + j ∧ pinned e = false := by
  induction es generalizing i lru with
  | nil => exact Or.inl h
  | cons f es ih =>
    -- a candidate found in the tail sits one position further on
    have htail : ∀ {lru' : Option (ℕ × CacheEntry)}, lruScan pinned es (i + 1) lru' = some (k, e) →
        lru' = some (k, e) ∨ ∃ j, (f :: es)[j]? = some e ∧ k = i + j ∧ pinned e = false := by
      intro lru' h'
      rcases ih h' with h' | ⟨j, hj, hk, hp⟩
      · exact Or.inl h'
      · exact Or.inr ⟨j + 1, by simpa using hj, by omega, hp⟩
    have hhead : pinned f = false → some (i, f) = some (k, e) →
        ∃ j, (f :: es)[j]? = some e ∧ k = i + j ∧ pinned e = false := by
      intro hp heq
      cases heq
      exact ⟨0, by simp, by omega, hp⟩
    unfold lruScan at h
    split at h
    · exact htail h
    next hp =>
      have hp : pinned f = false := by simpa using hp
      split at h
      · rcases htail h with h' | h'
        · exact Or.inr (hhead hp h')
        · exact Or.inr h'
      · split at h
        · rcases htail h with h' | h'
          · exact Or.inr (hhead hp h')
          · exact Or.inr h'
        · exact htail h

variable {i : ℕ}

theorem lruScan_none (h : lruScan pinned es i lru = none) :
    lru = none ∧ ∀ e ∈ es, pinned e = true := by
  induction es generalizing i lru with
  | nil => exact ⟨h, by simp⟩
  | cons f es ih =>
    unfold lruScan at h
    split at h
    next hp =>
      obtain ⟨hlru, hes⟩ := ih h
      refine ⟨hlru, ?_⟩
      intro e he
      rcases List.mem_cons.mp he with rfl | he
      · exact hp
      · exact hes e he
    · split at h
      · exact absurd (ih h).1 (by simp)
      · split at h
        · exact absurd (ih h).1 (by simp)
        · exact absurd (ih h).1 (by simp)

variable {c : BlockCache}

theorem Inv.mem_dropAt (hc : c.Inv) {e f : CacheEntry} (hi : c.entries[i]? = some e) :
    f ∈ (c.dropAt i).entries ↔ f ∈ c.entries ∧ f.lba ≠ e.lba := by
  obtain ⟨hlt, rfl⟩ := List.getElem?_eq_some_iff.mp hi
  have hmem : f ∈ (c.dropAt i).entries ↔ f ∈ c.entries.eraseIdx i :=
    (Vec.swapRemove_perm hlt).mem_iff
  rw [hmem, List.mem_eraseIdx_iff_getElem]
  constructor
  · rintro ⟨j, hj, hji, rfl⟩
    refine ⟨List.getElem_mem hj, fun heq => hji ?_⟩
    have hget : (c.entries.map (·.lba)).get ⟨j, by simpa using hj⟩ =
        (c.entries.map (·.lba)).get ⟨i, by simpa using hlt⟩ := by
      simpa using heq
    simpa using List.nodup_iff_injective_get.mp hc.nodup hget
  · rintro ⟨hf, hne⟩
    obtain ⟨j, hj, rfl⟩ := List.getElem_of_mem hf
    exact ⟨j, hj, fun hji => hne (by subst hji; rfl), rfl⟩

theorem Inv.dropAt_nodup (hc : c.Inv) (hi : i < c.entries.length) :
    ((c.dropAt i).entries.map (·.lba)).Nodup := by
  have hperm := (Vec.swapRemove_perm hi).map (·.lba)
  apply hperm.nodup_iff.mpr
  exact hc.nodup.sublist ((List.eraseIdx_sublist _ _).map _)

/-- Every run of `evictOne` on a non-empty cache: a clean victim is dropped, a
dirty one is written back and dropped unless the device fails, and if every
entry is pinned the eviction is refused. -/
theorem evictOne_cases (hne : c.entries ≠ []) :
    (∃ i e, c.entries[i]? = some e ∧ (e.dirty && c.isRecorded e.lba) = false ∧
      ((e.dirty = false ∧ evictOne c = .ok () (c.dropAt i)) ∨
        (e.dirty = true ∧ ∃ d',
          BlockDevice.writeSector e.lba e.data c.device = .ok () d' ∧
            evictOne c = .ok () ({ c with device := d' }.dropAt i)) ∨
        (e.dirty = true ∧ ∃ err d',
          BlockDevice.writeSector e.lba e.data c.device = .error err d' ∧
            evictOne c = .error err { c with device := d' }))) ∨
      ((∀ e ∈ c.entries, (e.dirty && c.isRecorded e.lba) = true) ∧
        evictOne c = .error .outOfRange c) := by
  have hempty : c.entries.isEmpty = false := by simpa using hne
  cases hscan : lruScan (fun e => e.dirty && c.isRecorded e.lba) c.entries 0 none with
  | none =>
    right
    refine ⟨(lruScan_none hscan).2, ?_⟩
    unfold evictOne
    rw [get_bind_run, hempty, hscan]
    rfl
  | some r =>
    obtain ⟨i, e⟩ := r
    left
    have hrun : evictOne c = (do
        if e.dirty then onDevice (BlockDevice.writeSector e.lba e.data)
        modify fun c => c.dropAt i : CacheM Unit) c := by
      unfold evictOne
      rw [get_bind_run, hempty, hscan]
      rfl
    rcases lruScan_some hscan with h | ⟨j, hj, hij, hp⟩
    · cases h
    · have hij : i = j := by omega
      subst hij
      refine ⟨i, e, hj, hp, ?_⟩
      cases hd : e.dirty with
      | false =>
        left
        refine ⟨rfl, ?_⟩
        rw [hrun]
        simp only [hd]
        rfl
      | true =>
        right
        simp only [hd, if_true] at hrun
        cases hw : BlockDevice.writeSector e.lba e.data c.device with
        | ok u d' =>
          left
          refine ⟨rfl, d', rfl, ?_⟩
          rw [hrun]
          simp only [onDevice, focus, bind_run, hw]
          rfl
        | error err d' =>
          right
          refine ⟨rfl, err, d', rfl, ?_⟩
          rw [hrun]
          simp only [onDevice, focus, bind_run, hw]
          rfl

/-- Dropping an entry keeps the logical contents once the device has its data. -/
theorem Inv.keeps_dropAt (hc : c.Inv) {d' : BlockDevice} (hi : c.entries[i]? = some e)
    (hd : (e.dirty = false ∧ d' = c.device) ∨
      (e.dirty = true ∧ c.isRecorded e.lba = false ∧
        d' = (c.device.store e.lba e.data).tick)) : Keeps c ({ c with device := d' }.dropAt i) := by
  have he : e ∈ c.entries := List.mem_of_getElem? hi
  have hlt : i < c.entries.length := (List.getElem?_eq_some_iff.mp hi).1
  have hmem : ∀ f, f ∈ ({ c with device := d' }.dropAt i).entries ↔
      f ∈ c.entries ∧ f.lba ≠ e.lba := fun f => hc.mem_dropAt hi
  have hsc : d'.sectorCount = c.device.sectorCount := by
    rcases hd with ⟨-, rfl⟩ | ⟨-, -, rfl⟩ <;> rfl
  have hst : d'.storage e.lba = e.data := by
    rcases hd with ⟨hcl, rfl⟩ | ⟨-, -, rfl⟩
    · exact (hc.clean e he hcl).symm
    · simp
  have hst' : ∀ lba, lba ≠ e.lba → d'.storage lba = c.device.storage lba := by
    intro lba hne
    rcases hd with ⟨-, rfl⟩ | ⟨-, -, rfl⟩
    · rfl
    · simp [WriteLog.put_of_ne _ _ hne]
  have hinv : ({ c with device := d' }.dropAt i).Inv := by
    refine ⟨hc.dropAt_nodup hlt, ?_, ?_, ?_⟩
    · have := hc.size
      simp only [dropAt, Vec.length_swapRemove]
      omega
    · intro f hf
      have := hc.range f ((hmem f).mp hf).1
      simpa [dropAt, hsc] using this
    · intro f hf hcl
      obtain ⟨hf, hne⟩ := (hmem f).mp hf
      rw [hc.clean f hf hcl]
      exact (hst' _ hne).symm
  refine
    { inv := hinv
      view := ?_
      recording := rfl
      sectorCount := hsc
      faults := by rcases hd with ⟨-, rfl⟩ | ⟨-, -, rfl⟩ <;> rfl
      dirty := ?_
      pinned := ?_
      writes := ?_ }
  · apply hinv.view_eq
    · intro f hf
      exact (hc.view_of_mem ((hmem f).mp hf).1).symm
    · intro lba hnone
      change d'.storage lba = _
      by_cases hlba : lba = e.lba
      · subst hlba
        rw [hst, hc.view_of_mem he]
      · rw [hst' lba hlba, view_of_lookup_none]
        apply lookup_eq_none_iff.mpr
        intro f hf hfl
        exact hnone f ((hmem f).mpr ⟨hf, by rwa [hfl]⟩) hfl
  · rintro lba ⟨f, hf, hfl, hfd⟩
    exact ⟨f, ((hmem f).mp hf).1, hfl, hfd⟩
  · rintro lba ⟨f, hf, rfl, hfd⟩ hrec
    refine ⟨f, (hmem f).mpr ⟨hf, fun heq => ?_⟩, rfl, hfd⟩
    have hfe := eq_of_lba_eq hc.nodup hf he heq
    subst hfe
    rcases hd with ⟨hcl, -⟩ | ⟨-, hnr, -⟩
    · simp [hcl] at hfd
    · simp [hnr] at hrec
  · rcases hd with ⟨-, rfl⟩ | ⟨hdirty, hnr, rfl⟩
    · exact ⟨[], by simp [dropAt]⟩
    · exact ⟨[(e.lba, e.data)], by simp [dropAt],
        by simp [dropAt],
        by simpa using ⟨⟨e, he, rfl, hdirty⟩, hnr, (hc.view_of_mem he).symm⟩⟩

/-- The pinned entries fill the cache. -/
def AllPinned (c : BlockCache) : Prop :=
  ∀ e ∈ c.entries, e.dirty = true ∧ c.isRecorded e.lba = true

variable {c' : BlockCache} {u : Unit}

/-- A successful eviction keeps the logical contents and makes room. -/
theorem evictOne_ok (hc : c.Inv) (hne : c.entries ≠ []) (h : evictOne c = .ok u c') :
    Keeps c c' ∧ c'.entries.length < maxCachedSectors ∧ ∀ e ∈ c'.entries, e ∈ c.entries := by
  have hsize := hc.size
  have hpos : 0 < c.entries.length := List.length_pos_iff.mpr hne
  rcases evictOne_cases hne with ⟨i, e, hi, hp, hcase⟩ | ⟨-, hrun⟩
  · have hmem : ∀ f ∈ (c.dropAt i).entries, f ∈ c.entries :=
      fun f hf => ((hc.mem_dropAt hi).mp hf).1
    have hlen : (c.dropAt i).entries.length < maxCachedSectors := by
      simp only [dropAt, Vec.length_swapRemove]
      omega
    rcases hcase with ⟨hd, hrun⟩ | ⟨hd, d', hw, hrun⟩ | ⟨hd, err, d', hw, hrun⟩
    · rw [hrun] at h
      cases h
      exact ⟨hc.keeps_dropAt hi (Or.inl ⟨hd, rfl⟩), hlen, hmem⟩
    · rw [hrun] at h
      cases h
      obtain ⟨-, rfl⟩ := BlockDevice.writeSector_ok hw
      have hnr : c.isRecorded e.lba = false := by simpa [hd] using hp
      exact ⟨hc.keeps_dropAt hi (Or.inr ⟨hd, hnr, rfl⟩), hlen, hmem⟩
    · rw [hrun] at h
      cases h
  · rw [hrun] at h
    cases h

variable {err : BlockError}

/-- A failed eviction changes nothing; without device faults it fails only
when every entry is pinned. -/
theorem evictOne_error (hc : c.Inv) (hne : c.entries ≠ []) (h : evictOne c = .error err c') :
    Keeps c c' ∧ c'.entries = c.entries ∧ (c.device.FaultFree → c.AllPinned) := by
  rcases evictOne_cases hne with ⟨i, e, hi, hp, hcase⟩ | ⟨hall, hrun⟩
  · rcases hcase with ⟨hd, hrun⟩ | ⟨hd, d', hw, hrun⟩ | ⟨hd, err', d', hw, hrun⟩
    · rw [hrun] at h
      cases h
    · rw [hrun] at h
      cases h
    · rw [hrun] at h
      cases h
      obtain ⟨hdev, hff⟩ := BlockDevice.writeSector_error hw
      refine ⟨Keeps.of_entries_eq hc rfl rfl hdev, rfl, fun hfault => ?_⟩
      have := hc.range e (List.mem_of_getElem? hi)
      exact absurd (hff hfault) (by omega)
  · rw [hrun] at h
    cases h
    refine ⟨Keeps.refl hc, rfl, fun _ e he => ?_⟩
    simpa using hall e he

/-! ## Making room -/

theorem makeRoom_ok (hc : c.Inv) (h : makeRoom c = .ok u c') :
    Keeps c c' ∧ c'.entries.length < maxCachedSectors ∧ ∀ e ∈ c'.entries, e ∈ c.entries := by
  change (if maxCachedSectors ≤ c.entries.length then evictOne else pure ()) c = _ at h
  split at h
  next hfull =>
    apply evictOne_ok hc _ h
    rintro hnil
    simp [hnil] at hfull
  next hroom =>
    cases h
    exact ⟨Keeps.refl hc, by omega, fun e he => he⟩

theorem makeRoom_error (hc : c.Inv) (h : makeRoom c = .error err c') :
    Keeps c c' ∧ c'.entries = c.entries ∧
      (c.device.FaultFree → c.AllPinned ∧ maxCachedSectors ≤ c.entries.length) := by
  change (if maxCachedSectors ≤ c.entries.length then evictOne else pure ()) c = _ at h
  split at h
  next hfull =>
    have hne : c.entries ≠ [] := by
      rintro hnil
      simp [hnil] at hfull
    obtain ⟨hk, he, hp⟩ := evictOne_error hc hne h
    exact ⟨hk, he, fun hff => ⟨hp hff, hfull⟩⟩
  next hroom => cases h

/-! ## Reading through the cache -/

/-- The cache after a hit on `lba`. -/
def touched (c : BlockCache) (lba : ℕ) : BlockCache :=
  { c.updateEntry lba fun e => { e with accessSeq := c.seq + 1 } with
    seq := c.seq + 1, hits := c.hits + 1 }

/-- The cache after a miss, with `d` the device that was asked. -/
def missed (c : BlockCache) (d : BlockDevice) : BlockCache :=
  { c with seq := c.seq + 1, misses := c.misses + 1, device := d }

theorem fetchSector_cases (lba : ℕ) (c : BlockCache) :
    (c.device.sectorCount ≤ lba ∧ fetchSector lba c = .error .outOfRange c) ∨
    (∃ e, lba < c.device.sectorCount ∧ c.lookup lba = some e ∧
      fetchSector lba c = .ok e.data (c.touched lba)) ∨
    (lba < c.device.sectorCount ∧ c.lookup lba = none ∧
      ((∃ err d, BlockDevice.readSector lba c.device = .error err d ∧
          fetchSector lba c = .error err (c.missed d)) ∨
        (∃ err c₂, BlockDevice.readSector lba c.device = .ok (c.device.storage lba) c.device.tick ∧
          makeRoom (c.missed c.device.tick) = .error err c₂ ∧
          fetchSector lba c = .error err c₂) ∨
        (∃ c₂, makeRoom (c.missed c.device.tick) = .ok () c₂ ∧
          fetchSector lba c = .ok (c.device.storage lba)
            (c₂.push ⟨lba, c.device.storage lba, false, c.seq + 1⟩)))) := by
  by_cases hlba : lba < c.device.sectorCount
  · have hreq : (require (lba < c.device.sectorCount) BlockError.outOfRange :
        CacheM Unit) c = .ok () c := require_ok_iff.mpr ⟨hlba, rfl⟩
    cases hl : c.lookup lba with
    | some e =>
      refine Or.inr (Or.inl ⟨e, hlba, rfl, ?_⟩)
      change (require _ _ >>= _ : CacheM Sector) c = _
      rw [bind_of_ok hreq]
      simp only [hl]
      rfl
    | none =>
      refine Or.inr (Or.inr ⟨hlba, rfl, ?_⟩)
      have hrun : fetchSector lba c =
          (do
            let buf ← onDevice (BlockDevice.readSector lba)
            makeRoom
            modify fun c' => c'.push ⟨lba, buf, false, c.seq + 1⟩
            pure buf : CacheM Sector)
            { c with seq := c.seq + 1, misses := c.misses + 1 } := by
        change (require _ _ >>= _ : CacheM Sector) c = _
        rw [bind_of_ok hreq]
        simp only [hl]
        rfl
      rw [hrun]
      cases hr : BlockDevice.readSector lba c.device with
      | error err d =>
        refine Or.inl ⟨err, d, rfl, ?_⟩
        simp only [onDevice, focus, bind_run, hr]
        rfl
      | ok buf d =>
        right
        obtain ⟨-, rfl, rfl⟩ := BlockDevice.readSector_ok hr
        cases hm : makeRoom (c.missed c.device.tick) with
        | error err c₂ =>
          refine Or.inl ⟨err, c₂, rfl, rfl, ?_⟩
          simp only [onDevice, focus, bind_run, hr]
          simp only [missed] at hm
          simp only [hm]
        | ok u c₂ =>
          refine Or.inr ⟨c₂, rfl, ?_⟩
          simp only [onDevice, focus, bind_run, hr]
          simp only [missed] at hm
          simp only [hm]
          rfl
  · refine Or.inl ⟨by omega, ?_⟩
    change (require _ _ >>= _ : CacheM Sector) c = _
    exact bind_of_error (require_error_iff.mpr ⟨hlba, rfl, rfl⟩)

variable {lba : ℕ}

/-- Changing only the access order of an entry keeps everything. -/
theorem Inv.keeps_updateEntry (hc : c.Inv) {f : CacheEntry → CacheEntry}
    (hf : ∀ e, (f e).lba = e.lba ∧ (f e).data = e.data ∧ (f e).dirty = e.dirty)
    (hentries : c'.entries = (c.updateEntry lba f).entries) (hdev : c'.device = c.device)
    (hrec : c'.recording = c.recording) : Keeps c c' := by
  have hback : ∀ e' ∈ c'.entries, ∃ e ∈ c.entries,
      e'.lba = e.lba ∧ e'.data = e.data ∧ e'.dirty = e.dirty := by
    intro e' he'
    rw [hentries] at he'
    rcases Vec.mem_updateFirst he' with he | ⟨e, he, -, rfl⟩
    · exact ⟨e', he, rfl, rfl, rfl⟩
    · exact ⟨e, he, hf e⟩
  have hforth : ∀ e ∈ c.entries, ∃ e' ∈ c'.entries,
      e'.lba = e.lba ∧ e'.data = e.data ∧ e'.dirty = e.dirty := by
    intro e he
    rw [hentries]
    rcases Vec.mem_updateFirst_or (f := f) (p := fun e => e.lba == lba) he with h | ⟨-, h⟩
    · exact ⟨e, h, rfl, rfl, rfl⟩
    · exact ⟨f e, h, hf e⟩
  have hinv : c'.Inv := by
    refine ⟨?_, ?_, ?_, ?_⟩
    · rw [hentries]
      simp only [updateEntry, Vec.map_updateFirst_of_eq fun e _ => (hf e).1]
      exact hc.nodup
    · rw [hentries]
      simp only [updateEntry, Vec.length_updateFirst]
      exact hc.size
    · intro e' he'
      obtain ⟨e, he, hlba, -⟩ := hback e' he'
      rw [hdev, hlba]
      exact hc.range e he
    · intro e' he' hcl
      obtain ⟨e, he, hlba, hdata, hdirty⟩ := hback e' he'
      rw [hdev, hlba, hdata]
      exact hc.clean e he (by rw [← hdirty, hcl])
  refine
    { inv := hinv
      view := ?_
      recording := hrec
      sectorCount := by rw [hdev]
      faults := by rw [hdev]
      dirty := ?_
      pinned := ?_
      writes := ⟨[], by simp [hdev]⟩ }
  · apply hinv.view_eq
    · intro e' he'
      obtain ⟨e, he, hlba, hdata, -⟩ := hback e' he'
      rw [hlba, hdata, hc.view_of_mem he]
    · intro l hnone
      rw [hdev, view_of_lookup_none]
      apply lookup_eq_none_iff.mpr
      intro e he hel
      obtain ⟨e', he', hlba, -⟩ := hforth e he
      exact hnone e' he' (hlba.trans hel)
  · rintro l ⟨e', he', hl, hd⟩
    obtain ⟨e, he, hlba, -, hdirty⟩ := hback e' he'
    exact ⟨e, he, hlba ▸ hl, hdirty ▸ hd⟩
  · rintro l ⟨e, he, hl, hd⟩ -
    obtain ⟨e', he', hlba, -, hdirty⟩ := hforth e he
    exact ⟨e', he', hlba.trans hl, hdirty.trans hd⟩

/-- Caching a sector as the device has it keeps everything. -/
theorem Inv.keeps_push (hc : c.Inv) {lba seq : ℕ} (hlba : lba < c.device.sectorCount)
    (hroom : c.entries.length < maxCachedSectors) (hnew : ∀ e ∈ c.entries, e.lba ≠ lba) :
    Keeps c (c.push ⟨lba, c.device.storage lba, false, seq⟩) := by
  have hmem : ∀ e, e ∈ (c.push ⟨lba, c.device.storage lba, false, seq⟩).entries ↔
      e ∈ c.entries ∨ e = ⟨lba, c.device.storage lba, false, seq⟩ := by
    simp [push]
  have hinv : (c.push ⟨lba, c.device.storage lba, false, seq⟩).Inv := by
    refine ⟨?_, ?_, ?_, ?_⟩
    · simp only [push, List.map_append, List.map_cons, List.map_nil]
      refine hc.nodup.append (List.nodup_singleton _) ?_
      simpa using hnew
    · simp only [push, List.length_append, List.length_singleton]
      omega
    · intro e he
      rcases (hmem e).mp he with he | rfl
      · exact hc.range e he
      · exact hlba
    · intro e he hcl
      rcases (hmem e).mp he with he | rfl
      · exact hc.clean e he hcl
      · rfl
  refine
    { inv := hinv
      view := ?_
      recording := rfl
      sectorCount := rfl
      faults := rfl
      dirty := ?_
      pinned := fun l ⟨e, he, hl, hd⟩ _ => ⟨e, (hmem e).mpr (Or.inl he), hl, hd⟩
      writes := ⟨[], by simp [push]⟩ }
  · apply hinv.view_eq
    · intro e he
      rcases (hmem e).mp he with he | rfl
      · exact (hc.view_of_mem he).symm
      · exact (view_of_lookup_none (lookup_eq_none_iff.mpr hnew)).symm
    · intro l hnone
      have hl : c.lookup l = none := lookup_eq_none_iff.mpr
        fun e he => hnone e ((hmem e).mpr (Or.inl he))
      rw [view_of_lookup_none hl]
      rfl
  · rintro l ⟨e, he, hl, hd⟩
    rcases (hmem e).mp he with he | rfl
    · exact ⟨e, he, hl, hd⟩
    · simp at hd

theorem Inv.keeps_missed (hc : c.Inv) {d : BlockDevice} (hd : d = c.device ∨ d = c.device.tick) :
    Keeps c (c.missed d) :=
  Keeps.of_entries_eq hc rfl rfl hd

variable {out : Sector}

/-- A successful read finds the sector in the cache or brings it in. -/
theorem fetchSector_ok_cases (h : fetchSector lba c = .ok out c') :
    lba < c.device.sectorCount ∧
      ((∃ e, c.lookup lba = some e ∧ out = e.data ∧ c' = c.touched lba) ∨
        ∃ c₂, c.lookup lba = none ∧ makeRoom (c.missed c.device.tick) = .ok () c₂ ∧
          out = c.device.storage lba ∧
          c' = c₂.push ⟨lba, c.device.storage lba, false, c.seq + 1⟩) := by
  rcases fetchSector_cases lba c with ⟨-, hrun⟩ | ⟨e, hlba, hl, hrun⟩ |
    ⟨hlba, hl, ⟨err, d, -, hrun⟩ | ⟨err, c₂, -, -, hrun⟩ | ⟨c₂, hm, hrun⟩⟩
  all_goals
    rw [hrun] at h
    cases h
  · exact ⟨hlba, Or.inl ⟨e, hl, rfl, rfl⟩⟩
  · exact ⟨hlba, Or.inr ⟨c₂, hl, hm, rfl, rfl⟩⟩

/-- A successful read returns the logical contents and keeps them. -/
theorem fetchSector_ok (hc : c.Inv) (h : fetchSector lba c = .ok out c') :
    lba < c.device.sectorCount ∧ out = c.view lba ∧ Keeps c c' := by
  obtain ⟨hlba, ⟨e, hl, rfl, rfl⟩ | ⟨c₂, hl, hm, rfl, rfl⟩⟩ := fetchSector_ok_cases h
  · refine ⟨hlba, by simp [view, hl], ?_⟩
    exact hc.keeps_updateEntry (f := fun e => { e with accessSeq := c.seq + 1 })
      (fun e => ⟨rfl, rfl, rfl⟩) rfl rfl rfl
  · have hk₁ := hc.keeps_missed (Or.inr rfl)
    obtain ⟨hk₂, hroom, hmem⟩ := makeRoom_ok hk₁.inv hm
    have hk := hk₁.trans hk₂
    have hnew : ∀ e ∈ c₂.entries, e.lba ≠ lba := by
      intro e he
      exact lookup_eq_none_iff.mp hl e (hmem e he)
    have hst : c₂.device.storage lba = c.device.storage lba := by
      apply hk.storage_of_not_dirtyAt
      rintro ⟨e, he, hel, -⟩
      exact lookup_eq_none_iff.mp hl e he hel
    refine ⟨hlba, (view_of_lookup_none hl).symm, hk.trans ?_⟩
    rw [← hst]
    exact hk.inv.keeps_push (by rw [hk.sectorCount]; exact hlba) hroom hnew

/-- A failed read keeps everything; without device faults it fails, for a
sector of the device, only when the sector is not cached and the cache is full
of pinned entries. -/
theorem fetchSector_error (hc : c.Inv) (h : fetchSector lba c = .error err c') :
    Keeps c c' ∧ c'.entries = c.entries ∧
      (c.device.FaultFree → lba < c.device.sectorCount →
        c.lookup lba = none ∧ c.AllPinned ∧ maxCachedSectors ≤ c.entries.length) := by
  rcases fetchSector_cases lba c with ⟨hlba, hrun⟩ | ⟨e, hlba, hl, hrun⟩ |
    ⟨hlba, hl, ⟨err', d, hr, hrun⟩ | ⟨err', c₂, hr, hm, hrun⟩ | ⟨c₂, hm, hrun⟩⟩
  · rw [hrun] at h
    cases h
    exact ⟨Keeps.refl hc, rfl, fun _ hlt => by omega⟩
  · rw [hrun] at h
    cases h
  · rw [hrun] at h
    cases h
    obtain ⟨hd, hff⟩ := BlockDevice.readSector_error hr
    exact ⟨hc.keeps_missed hd, rfl, fun hfault _ => absurd (hff hfault) (by omega)⟩
  · rw [hrun] at h
    cases h
    have hk₁ := hc.keeps_missed (Or.inr rfl)
    obtain ⟨hk₂, he, hp⟩ := makeRoom_error hk₁.inv hm
    exact ⟨hk₁.trans hk₂, he, fun hff _ => ⟨hl, hp hff⟩⟩
  · rw [hrun] at h
    cases h

theorem fetchSector_keeps (hc : c.Inv) (lba : ℕ) : Keeps c (final (fetchSector lba) c) := by
  cases h : fetchSector lba c with
  | ok out c' =>
    rw [final_of_ok h]
    exact (fetchSector_ok hc h).2.2
  | error err c' =>
    rw [final_of_error h]
    exact (fetchSector_error hc h).1

end RacOS.Block.BlockCache
